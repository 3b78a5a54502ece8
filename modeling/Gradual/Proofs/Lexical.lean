import Gradual.Proofs.Growth
import Gradual.Proofs.Soundness

/-!
# Lexical scoping

A function keeps the scopes it was made in, and those go on growing while the
program runs. A name that its body looks up further out means the same at
every call as it did when the function was made, unless a scope in between
declares that name too late. If no scope does (`Expr.lexical`), a program
without casts runs as its static types say.
-/

namespace Gradual

/-! ## Names that a tree looks up further out -/

theorem Typed.names {D : Discipline} {P : Place} {s s' : Scope Ty} {e : Expr} {ty : Ty}
    (h : Typed D P s e ty s') : s'.names = e.lets.reverse ++ s.names := by
  induction h with
  | const | var _ _ | lam _ _ | seqNil => rfl
  | binary _ _ _ ihl ihr | app _ _ ihl ihr | assign _ _ ihl ihr =>
    rw [ihr, ihl, Expr.lets, List.reverse_append, List.append_assoc]
  | seqOne _ ih => simpa [Expr.lets, Expr.letsAll] using ih
  | seqMore _ _ ih ihs =>
    rw [ihs, ih]
    simp [Expr.lets, Expr.letsAll]
  | decl _ _ _ ih => simp [ih, Expr.lets]
  | cond _ _ _ ih _ _ | deref _ ih | alloc _ ih | print _ ih | cast _ _ ih => exact ih

theorem Clear.of_freeze {x : String} : ∀ {Γ : List Layer}, Clear x (Γ.map Layer.freeze) → Clear x Γ
  | [], _ => trivial
  | l :: Γ, h => by
    refine h.imp_right fun h => ⟨?_, Clear.of_freeze h.2⟩
    exact .inr (h.1.resolve_left (by simp [Layer.freeze]))

def Settled (D : Discipline) (x : String) (Γ : List Layer) : Prop :=
  (∃ ty, Context.findIn x (Γ.map Layer.scope) = some ty) ∧ (¬ D.Blind → Clear x Γ)

theorem Settled.outer {D : Discipline} {x : String} {l : Layer} {Γ : List Layer} (h : Settled D x (l :: Γ))
    (hx : x ∉ l.scope.names) : Settled D x Γ := by
  have hb : l.scope.binds x = false := by simpa using fun hb => hx (Scope.binds_iff.mp hb)
  obtain ⟨⟨ty, hty⟩, hc⟩ := h
  simp only [List.map_cons, Context.findIn, Scope.find?_of_not_binds hb] at hty
  exact ⟨⟨ty, hty⟩, fun hD => ((hc hD).resolve_left (by simp [hb])).2⟩

theorem Typed.settled {D : Discipline} {P : Place} {s s' : Scope Ty} {e : Expr} {ty : Ty}
    (h : Typed D P s e ty s') : ∀ x ∈ e.lookups s.names, Settled D x P.around := by
  induction h with
  | const | seqNil => intro x hx; cases hx
  | @var P s y ty hy hclear =>
    intro x hx
    simp only [Expr.lookups] at hx
    split at hx
    · cases hx
    · rename_i hn
      have : x = y := by simpa using hx
      subst this
      exact Settled.outer (l := ⟨s, P.lets, true⟩) ⟨⟨ty, hy⟩, hclear⟩ (by simpa using hn)
  | binary hl _ _ ihl ihr | app hl _ ihl ihr | assign hl _ ihl ihr =>
    intro x hx
    simp only [Expr.lookups, List.mem_append, ← hl.names] at hx
    exact hx.elim (ihl x) (ihr x)
  | cond hc _ _ ihc iht ihe =>
    intro x hx
    simp only [Expr.lookups, List.mem_append, List.mem_filter, ← hc.names] at hx
    rcases hx with hx | ⟨hx, hn⟩
    · exact ihc x hx
    · exact (hx.elim (iht x) (ihe x)).outer (by simpa using hn)
  | @lam P s sb y yTy ret body lets hb ih =>
    intro x hx
    simp only [Expr.lookups, List.mem_filter] at hx
    obtain ⟨⟨xTy, hxTy⟩, hclear⟩ := ih x hx.1
    rw [map_freeze_scope] at hxTy
    have hall : Settled D x (P.layers s) := ⟨⟨xTy, hxTy⟩, fun hD => (hclear hD).of_freeze⟩
    exact hall.outer (by simpa using hx.2)
  | seqOne _ ih =>
    intro x hx
    simp only [Expr.lookups, Expr.lookupsAll, List.append_nil] at hx
    exact ih x hx
  | seqMore he _ ih ihs =>
    intro x hx
    simp only [Expr.lookups, Expr.lookupsAll, List.mem_append, ← he.names] at hx ihs
    rcases hx with hx | hx
    · exact ih x hx
    · exact ihs x hx
  | decl _ _ _ ih | deref _ ih | alloc _ ih | print _ ih | cast _ _ ih => exact ih

/-! ## What a settled name is bound to -/

section
variable {D : Discipline} {W W' : World} {st st' : State}

theorem State.Fine.grownBy (h : st.Fine D W) (h' : st'.Fine D W') (hle : W.Le D W')
    (hext : st.scopes.Extends st'.scopes) {c : Chain} (hc : W.scopes.Has c) :
    (st.scopes.scope c).GrownBy (D.May (W.lets c.head?)) (st'.scopes.scope c) := by
  obtain ⟨new, hnew⟩ := hext.scopes c (h.has hc)
  obtain ⟨types, htypes, hmay⟩ := hle.grown c hc
  -- Both states bind the names of their worlds, so what is new in one is new in the other.
  have hnames : new.map Prod.fst = types.map Prod.fst := by
    have := h'.names c
    rw [Scope.names, Scope.names, hnew, htypes, List.map_append, List.map_append] at this
    have hold : (st.scopes.scope c).bindings.map Prod.fst = (W.scopes.scope c).bindings.map Prod.fst := h.names c
    rw [hold] at this
    exact List.append_cancel_right this
  refine ⟨new, hnew, fun b hb => ?_⟩
  have hb₁ : b.1 ∈ types.map Prod.fst := hnames ▸ List.mem_map_of_mem hb
  obtain ⟨t, ht, hbt⟩ := List.mem_map.mp hb₁
  rw [h.binds c, ← hbt]
  exact hmay t ht

theorem World.Sees.find?_stable {c : Chain} {Γ : List Layer} {x : String} (hs : W.Sees D c Γ)
    (h : st.Fine D W) (h' : st'.Fine D W') (hle : W.Le D W') (hext : st.scopes.Extends st'.scopes)
    (hD : ¬ D.Blind) (hΓ : ∀ l ∈ Γ, l.live = false) (hclear : Clear x Γ) :
    st'.scopes.find? c x = st.scopes.find? c x := by
  have here : ∀ {c v}, W.scopes.Has c → (st.scopes.scope c).find? x = some v →
      (st'.scopes.scope c).find? x = some v :=
    fun hc hv => (h.grownBy h' hle hext hc).find? hv
  have beyond : ∀ {c l Γ}, W.scopes.Has c → W.Shows D c l → l.live = false → Clear x (l :: Γ) →
      (st.scopes.scope c).find? x = none → (st'.scopes.scope c).find? x = none ∧ Clear x Γ := by
    intro c l Γ hc hl hlive hclear hnone
    have hb : ¬ l.scope.binds x = true := by
      intro hb
      have := hl.grown.binds hb
      rw [← h.binds c, Scope.binds, hnone] at this
      cases this
    obtain ⟨hlets, hrest⟩ := hclear.resolve_left hb
    have hx : ¬ D.May (W.lets c.head?) x := by
      rw [hl.lets.resolve_left hD]
      exact fun hm => hm.elim hD (hlets.resolve_left (by simp [hlive]))
    exact ⟨(h.grownBy h' hle hext hc).find?_none hnone hx, hrest⟩
  induction hs with
  | @global l hl =>
    have hc := ScopeTree.has_nil W.scopes
    show (st'.scopes.scope []).find? x = (st.scopes.scope []).find? x
    cases hv : (st.scopes.scope []).find? x with
    | some v => exact here hc hv
    | none => exact (beyond hc hl (hΓ l List.mem_cons_self) hclear hv).1
  | @inner i c l Γ hi _ hl _ ih =>
    have hc : W.scopes.Has (i :: c) := ScopeTree.has_cons.mpr hi
    simp only [ScopeTree.find?]
    cases hv : (st.scopes.scope (i :: c)).find? x with
    | some v => rw [here hc hv]
    | none =>
      obtain ⟨hnone, hrest⟩ := beyond hc hl (hΓ l List.mem_cons_self) hclear hv
      rw [hnone]
      exact ih (fun l hl => hΓ l (List.mem_cons_of_mem _ hl)) hrest

/-- What the body of a function looks up further out is, at any later moment,
what it was when the function was made. -/
theorem Machine.Fine.find?_stable {limit : Nat} {goal : Scope Ty} {goalTy : Ty} {m m' : Machine} {x : String}
    {xTy : Ty} {ret : Option Ty} {body : Expr} {c : Chain} (h : m.Fine D goal goalTy W) (hD : ¬ D.Blind)
    (hm : m.focus = .eval (.lam x xTy ret body) c) (hr : Machine.Reaches limit m m')
    (hh : ∀ n, Machine.Reaches limit m n → Honest D n) :
    ∀ y ∈ body.lookups [x], ∃ v, m.state.scopes.find? c y = some v ∧ m'.state.scopes.find? c y = some v := by
  intro y hy
  obtain ⟨W', hle, h'⟩ := h.reaches hr hh
  cases h with
  | value _ _ _ _ => cases hm
  | error _ _ => cases hm
  | @eval e c P s s' ty K d st hst hc he _ =>
    cases hm
    cases he with
    | lam hb =>
      obtain ⟨⟨yTy, hyTy⟩, hclear⟩ := hb.settled y hy
      obtain ⟨ty, hw, -⟩ := hc.freeze.find? hyTy hclear
      obtain ⟨v, hv, -⟩ := hst.find? hw
      refine ⟨v, hv, ?_⟩
      rw [hc.freeze.find?_stable hst h'.state hle hr.extends hD (live_freeze _) (hclear hD)]
      exact hv

end

/-! ## Programs without casts -/

/-- A program without casts, in which no name is shadowed late, ends as its
types say, and its functions mean the same names at every call. -/
theorem run_static_of_lexical {e e' : Expr} {ty : Ty} {σ : CheckState} (hlex : e.lexical = true)
    (hcheck : e.checkProgram { context := {} } = .ok (ty, e') σ) (hcasts : e'.casts = 0)
    (config : Config) (sink : Sink) :
    let out := (Interpreter.fresh config sink).run e'
    (∀ err, out.1 = .error err →
      err.kind ∉ ["Internal", "NotTypechecked", "Cast", "UnboundName", "Redeclaration"]) ∧
    (∀ v, out.1 = .ok v → out.2.state.cells.typeOf v = ty) ∧
    ∀ m m' x xTy ret body c,
      Machine.Reaches config.maxCallDepth ⟨.eval e' [], [], 0, { sink }⟩ m →
      m.focus = .eval (.lam x xTy ret body) c → Machine.Reaches config.maxCallDepth m m' →
      ∀ y ∈ body.lookups [x], ∃ v, m.state.scopes.find? c y = some v ∧ m'.state.scopes.find? c y = some v := by
  intro out
  have hnone := Expr.castTargets_eq_nil hcasts
  let D := Discipline.exact fun _ => False
  have hD : ¬ D.Blind := Discipline.exact_not_blind _
  have hh : ∀ m, Honest D m := honest_of_casts fun _ _ _ ht _ => ht.elim
  have hm := Machine.Fine.start (D := D) hcheck (fun _ => hlex) (by rw [hnone]; simp) sink
  obtain ⟨W, -, hst, hok, herr⟩ := Interpreter.fresh_run_ends hm config fun m _ => hh m
  refine ⟨fun err he => ?_, fun v hv => ?_, fun m m' x xTy ret body c hr hfocus hr' => ?_⟩
  · have h₁ := (herr err he).kind_not_mem hD
    have h₂ := (herr err he).kind_ne_cast fun _ ht => ht
    simp only [List.mem_cons, List.not_mem_nil, not_or] at h₁ ⊢
    exact ⟨h₁.1, h₁.2.1, h₂, h₁.2.2⟩
  · rw [hst.typeOf v]; exact (hok v hv).1.fits
  · obtain ⟨W', -, hm'⟩ := hm.reaches hr fun n _ => hh n
    exact hm'.find?_stable hD hfocus hr' fun n _ => hh n

def earlyShadow : Expr :=
  .seq [
    .decl "x" none (.const (.str "outer")),
    .cond (.const (.bool true))
      (.seq [
        .decl "x" none (.const (.int 1)),
        .decl "f" none (.lam "y" .int none (.binary .add (.var "x") (.var "y"))),
        .app (.var "f") (.const (.int 2))])
      (.const (.int 0))]

def earlyShadowChecked : Expr :=
  .seq [
    .decl "x" none (.const (.str "outer")),
    .cond (.const (.bool true))
      (.seq [
        .decl "x" none (.const (.int 1)),
        .decl "f" none (.lam "y" .int (some .int) (.binary .add (.var "x") (.var "y"))),
        .app (.var "f") (.const (.int 2))])
      (.const (.int 0))]

theorem run_static_of_lexical_earlyShadow :
    earlyShadow.lexical = true ∧
      (∃ σ, earlyShadow.checkProgram { context := {} } = .ok (.int, earlyShadowChecked) σ) ∧
      earlyShadowChecked.casts = 0 ∧
      ∀ config sink v, ((Interpreter.fresh config sink).run earlyShadowChecked).1 = .ok v →
        ((Interpreter.fresh config sink).run earlyShadowChecked).2.state.cells.typeOf v = .int := by
  refine ⟨by decide, ⟨_, rfl⟩, rfl, fun config sink => ?_⟩
  exact (run_static_of_lexical (e := earlyShadow) (by decide) rfl rfl config sink).2.1

/-! ## A name shadowed late -/

def lateShadow : Expr :=
  .seq [
    .decl "x" none (.const (.int 1)),
    .cond (.const (.bool true))
      (.seq [
        .decl "f" none (.lam "y" .int none (.var "x")),
        .decl "x" none (.const (.str "s")),
        .binary .add (.app (.var "f") (.const (.int 0))) (.const (.int 1))])
      (.const (.int 0))]

def lateShadowChecked : Expr :=
  .seq [
    .decl "x" none (.const (.int 1)),
    .cond (.const (.bool true))
      (.seq [
        .decl "f" none (.lam "y" .int (some .int) (.var "x")),
        .decl "x" none (.const (.str "s")),
        .binary .add (.app (.var "f") (.const (.int 0))) (.const (.int 1))])
      (.const (.int 0))]

/-- The checker takes the outer `x`, the call finds the inner one. -/
theorem lateShadow_run_internal :
    (∀ t ∈ lateShadow.annotations, t.mentionsDyn = false) ∧ lateShadow.casts = 0 ∧
      (∃ σ, lateShadow.checkProgram { context := {} } = .ok (.int, lateShadowChecked) σ) ∧
      lateShadowChecked.casts = 0 ∧
      ∀ sink, ((Interpreter.fresh {} sink).run lateShadowChecked).1 =
        .error (.internal "int operand" "string" "s") := by
  refine ⟨by decide, rfl, ⟨_, rfl⟩, rfl, fun sink => ?_⟩
  rw [Interpreter.run, Interpreter.evaluate_eq]
  rfl

end Gradual

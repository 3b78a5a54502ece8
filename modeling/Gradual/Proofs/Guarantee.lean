import Gradual.Proofs.Elaboration
import Gradual.Proofs.Names
import Gradual.Proofs.Precision
import Gradual.Proofs.Scopes
import Mathlib.Data.List.Forall2

/-!
# Less precise programs are still accepted

Making the annotations of a program less precise never turns it into one that
the checker refuses, and its type becomes at most less precise
(`check_of_less_precise`). Cells are left out: a reference to a less precise
cell is not a less precise reference.
-/

namespace Gradual

/-! ## Trees and contexts that are less precise -/

/-- The second tree is the first with less precise annotations. What is absent
in the one is absent in the other. -/
inductive Expr.Le : Expr → Expr → Prop where
  | const {c} : Le (.const c) (.const c)
  | var {x} : Le (.var x) (.var x)
  | binary {op l r l' r'} : Le l l' → Le r r' → Le (.binary op l r) (.binary op l' r')
  | cond {c t e c' t' e'} : Le c c' → Le t t' → Le e e' → Le (.cond c t e) (.cond c' t' e')
  | lam {x xTy xTy' ret ret' body body'} :
      xTy ≤ xTy' → Option.Rel (· ≤ ·) ret ret' → Le body body' →
      Le (.lam x xTy ret body) (.lam x xTy' ret' body')
  | app {f a f' a'} : Le f f' → Le a a' → Le (.app f a) (.app f' a')
  | seqNil : Le (.seq []) (.seq [])
  | seqCons {e es e' es'} : Le e e' → Le (.seq es) (.seq es') → Le (.seq (e :: es)) (.seq (e' :: es'))
  | decl {x ty ty' v v'} : Option.Rel (· ≤ ·) ty ty' → Le v v' → Le (.decl x ty v) (.decl x ty' v')
  | assign {t v t' v'} : Le t t' → Le v v' → Le (.assign t v) (.assign t' v')
  | deref {t t'} : Le t t' → Le (.deref t) (.deref t')
  | alloc {v v' ty ty'} : Le v v' → Option.Rel (· ≤ ·) ty ty' → Le (.alloc v ty) (.alloc v' ty')
  | print {v v'} : Le v v' → Le (.print v) (.print v')
  | cast {ty ty' e e'} : ty ≤ ty' → Le e e' → Le (.cast ty e) (.cast ty' e')

def Expr.storeHere : Expr → List Expr
  | .assign t v => [.assign t v]
  | .alloc v ty => [.alloc v ty]
  | _ => []

abbrev Expr.stores : Expr → List Expr := Expr.gather Expr.storeHere

def Scope.Le (s s' : Scope Ty) : Prop :=
  ∀ x, Option.Rel (· ≤ ·) (s.find? x) (s'.find? x)

theorem Scope.Le.findIn {ss ss' : List (Scope Ty)} (h : List.Forall₂ Scope.Le ss ss') {x : String} {ty : Ty}
    (hx : Context.findIn x ss = some ty) : ∃ ty', Context.findIn x ss' = some ty' ∧ ty ≤ ty' := by
  induction h with
  | nil => cases hx
  | @cons s s' ss ss' hs _ ih =>
    simp only [Context.findIn] at hx ⊢
    have hsx := hs x
    generalize s.find? x = o at hsx hx
    generalize s'.find? x = o' at hsx
    cases hsx with
    | some hle => cases hx; exact ⟨_, rfl, hle⟩
    | none => exact ih hx

structure Context.Le (Γ Γ' : Context) : Prop where
  current : Γ.current.Le Γ'.current
  outer : List.Forall₂ Scope.Le Γ.outer Γ'.outer

namespace Context.Le

variable {Γ Γ' : Context}

theorem find? (h : Γ.Le Γ') {x : String} {ty : Ty} (hx : Γ.find? x = some ty) :
    ∃ ty', Γ'.find? x = some ty' ∧ ty ≤ ty' :=
  Scope.Le.findIn (.cons h.current h.outer) hx

theorem binds (h : Γ.Le Γ') {x : String} (hx : Γ.current.binds x = false) : Γ'.current.binds x = false := by
  have hs := h.current x
  rw [Scope.find?_of_not_binds hx] at hs
  generalize hf : Γ'.current.find? x = o at hs
  cases hs with
  | none => simp [Scope.binds, hf]

theorem bind (h : Γ.Le Γ') {ty ty' : Ty} (hty : ty ≤ ty') (x : String) : (Γ.bind x ty).Le (Γ'.bind x ty') := by
  refine ⟨fun y => ?_, h.outer⟩
  simp only [Context.bind, Scope.find?_insert]
  by_cases hy : y = x
  · simp only [hy, ite_true]
    exact .some hty
  · simp only [hy, ite_false]
    exact h.current y

theorem push (h : Γ.Le Γ') : Γ.push.Le Γ'.push :=
  ⟨fun _ => .none, .cons h.current h.outer⟩

theorem pop (h : Γ.Le Γ') : Γ.pop.Le Γ'.pop := by
  obtain ⟨s, ss⟩ := Γ
  obtain ⟨s', ss'⟩ := Γ'
  cases h.outer with
  | nil => exact h
  | cons hs hss => exact ⟨hs, hss⟩

end Context.Le

/-! ## Checks -/

theorem Ty.consistent_getD {o o' : Option Ty} {ty ty' : Ty} (ho : Option.Rel (· ≤ ·) o o') (hty : ty ≤ ty')
    (h : (o.getD ty).consistent ty = true) :
    o.getD ty ≤ o'.getD ty' ∧ (o'.getD ty').consistent ty' = true := by
  cases ho with
  | some hle => exact ⟨hle, Ty.consistent_mono hle hty h⟩
  | none => exact ⟨hty, Ty.consistent_refl ty'⟩

theorem Elab.less_precise {σ σ' τ : CheckState} {e e' d : Expr} {ty : Ty} (h : Elab σ e ty e' σ')
    (hs : e.stores = []) (hle : e.Le d) (hΓ : σ.context.Le τ.context) :
    ∃ ty₂ d' τ', Elab τ d ty₂ d' τ' ∧ ty ≤ ty₂ ∧ σ'.context.Le τ'.context := by
  induction h generalizing d τ with
  | @const σ c => cases hle; exact ⟨_, _, _, .const, .refl, hΓ⟩
  | var hx =>
    cases hle
    obtain ⟨ty₂, hx₂, hty⟩ := hΓ.find? hx
    exact ⟨ty₂, _, _, .var hx₂, hty, hΓ⟩
  | equality hop _ _ hc ihl ihr =>
    cases hle with | binary hl hr =>
    simp only [Expr.gather, Expr.storeHere, List.nil_append, List.append_eq_nil_iff] at hs
    obtain ⟨lTy, l', τ₁, hl, hlTy, hΓ₁⟩ := ihl hs.1 hl hΓ
    obtain ⟨rTy, r', τ₂, hr, hrTy, hΓ₂⟩ := ihr hs.2 hr hΓ₁
    exact ⟨_, _, _, .equality hop hl hr (Ty.consistent_mono hlTy hrTy hc), .refl, hΓ₂⟩
  | integer hop _ _ hcl hcr ihl ihr =>
    cases hle with | binary hl hr =>
    simp only [Expr.gather, Expr.storeHere, List.nil_append, List.append_eq_nil_iff] at hs
    obtain ⟨lTy, l', τ₁, hl, hlTy, hΓ₁⟩ := ihl hs.1 hl hΓ
    obtain ⟨rTy, r', τ₂, hr, hrTy, hΓ₂⟩ := ihr hs.2 hr hΓ₁
    have hcl₂ := Ty.consistent_mono (le_refl Ty.int) hlTy hcl
    have hcr₂ := Ty.consistent_mono (le_refl Ty.int) hrTy hcr
    exact ⟨_, _, _, .integer hop hl hr hcl₂ hcr₂, .refl, by simpa using hΓ₂⟩
  | cond _ hcc _ _ ihc iht ihe =>
    cases hle with | cond hc ht he =>
    simp only [Expr.gather, Expr.storeHere, List.nil_append, List.append_eq_nil_iff] at hs
    obtain ⟨cTy, c', τ₁, hc, hcTy, hΓ₁⟩ := ihc hs.1 hc hΓ
    have hcc₂ := Ty.consistent_mono (le_refl Ty.bool) hcTy hcc
    obtain ⟨tTy, t', τ₂, ht, htTy, hΓ₂⟩ := iht hs.2.1 ht (τ := (τ₁.adjusted .condition .bool cTy).push)
      (by simpa [CheckState.push] using hΓ₁.push)
    obtain ⟨eTy, e', τ₃, he, heTy, hΓ₃⟩ := ihe hs.2.2 he (τ := τ₂.pop.push) hΓ₂.pop.push
    refine ⟨_, _, _, .cond hc hcc₂ ht he, Ty.join_mono htTy heTy, ?_⟩
    simp only [CheckState.adjusted_context]
    exact hΓ₃.pop
  | lam _ hc ih =>
    cases hle with | lam hx hret hbody =>
    obtain ⟨bodyTy, body', τ₁, hb, hbTy, hΓ₁⟩ := ih hs hbody (τ := τ.push.bind _ _) (hΓ.push.bind hx _)
    obtain ⟨hret, hc₂⟩ := Ty.consistent_getD hret hbTy hc
    refine ⟨_, _, _, .lam hb hc₂, .fn hx hret, ?_⟩
    simp only [CheckState.adjusted_context]
    exact hΓ₁.pop
  | app _ _ hc ihf iha =>
    cases hle with | app hf ha =>
    simp only [Expr.gather, Expr.storeHere, List.nil_append, List.append_eq_nil_iff] at hs
    obtain ⟨fTy, f', τ₁, hf, hfTy, hΓ₁⟩ := ihf hs.1 hf hΓ
    obtain ⟨aTy, a', τ₂, ha, haTy, hΓ₂⟩ := iha hs.2 ha hΓ₁
    -- A callee that has become `?` is called with any argument.
    rw [CheckState.adjusted_context]
    obtain rfl | ⟨dom, cod, rfl, hdom, hcod⟩ := hfTy.of_fn
    · exact ⟨_, _, _, .appDyn hf ha, .dyn, hΓ₂⟩
    · exact ⟨_, _, _, .app hf ha (Ty.consistent_mono hdom haTy hc), hcod, by simpa using hΓ₂⟩
  | appDyn _ _ ihf iha =>
    cases hle with | app hf ha =>
    simp only [Expr.gather, Expr.storeHere, List.nil_append, List.append_eq_nil_iff] at hs
    obtain ⟨fTy, f', τ₁, hf, hfTy, hΓ₁⟩ := ihf hs.1 hf hΓ
    obtain ⟨aTy, a', τ₂, ha, haTy, hΓ₂⟩ := iha hs.2 ha hΓ₁
    obtain rfl := hfTy.of_dyn
    exact ⟨_, _, _, .appDyn hf ha, .refl, hΓ₂⟩
  | seqNil => cases hle; exact ⟨_, _, _, .seqNil, .refl, hΓ⟩
  | seqOne _ ih =>
    cases hle with | seqCons he hes =>
    cases hes
    simp only [Expr.gather, Expr.gatherAll, Expr.storeHere, List.nil_append, List.append_nil] at hs
    obtain ⟨ty₂, e', τ₁, he, hty, hΓ₁⟩ := ih hs he hΓ
    exact ⟨ty₂, _, _, .seqOne he, hty, hΓ₁⟩
  | seqMore _ _ ih ihs =>
    cases hle with | seqCons he hes =>
    simp only [Expr.gather, Expr.gatherAll, Expr.storeHere, List.nil_append, List.append_eq_nil_iff] at hs ihs
    obtain ⟨ty₁, e', τ₁, he, -, hΓ₁⟩ := ih hs.1 he hΓ
    obtain ⟨ty₂, rest, τ₂, hrest, hty, hΓ₂⟩ := ihs hs.2 hes hΓ₁
    cases hes with | seqCons _ _ =>
    cases hrest with
    | seqOne h => exact ⟨ty₂, _, _, .seqMore he (.seqOne h), hty, hΓ₂⟩
    | seqMore h h' => exact ⟨ty₂, _, _, .seqMore he (.seqMore h h'), hty, hΓ₂⟩
  | decl _ hc hx ih =>
    cases hle with | decl hdeclared hv =>
    obtain ⟨vTy, v', τ₁, hv, hvTy, hΓ₁⟩ := ih hs hv hΓ
    obtain ⟨hbound, hc₂⟩ := Ty.consistent_getD hdeclared hvTy hc
    refine ⟨_, _, _, .decl hv hc₂ (hΓ₁.binds hx), .refl, ?_⟩
    simpa [CheckState.bind, Context.bind] using hΓ₁.bind hbound _
  | deref _ ih =>
    cases hle with | deref ht =>
    obtain ⟨tTy, t', τ₁, ht, htTy, hΓ₁⟩ := ih hs ht hΓ
    cases htTy with
    | refl => exact ⟨_, _, _, .deref ht, .refl, hΓ₁⟩
    | dyn => exact ⟨_, _, _, .derefDyn ht, .dyn, hΓ₁⟩
  | derefDyn _ ih =>
    cases hle with | deref ht =>
    obtain ⟨tTy, t', τ₁, ht, htTy, hΓ₁⟩ := ih hs ht hΓ
    obtain rfl := htTy.of_dyn
    exact ⟨_, _, _, .derefDyn ht, .refl, hΓ₁⟩
  | print _ ih =>
    cases hle with | print hv =>
    obtain ⟨vTy, v', τ₁, hv, -, hΓ₁⟩ := ih hs hv hΓ
    exact ⟨_, _, _, .print hv, .refl, hΓ₁⟩
  | cast _ ih =>
    cases hle with | cast hty he =>
    obtain ⟨eTy, e', τ₁, he, -, hΓ₁⟩ := ih hs he hΓ
    exact ⟨_, _, _, .cast he, hty, hΓ₁⟩
  | assign _ _ _ _ _ | assignDyn _ _ _ _ | alloc _ _ => simp [Expr.gather, Expr.storeHere] at hs

/-- If the annotations of an accepted program, and the types of the names around
it, are made less precise, it is accepted again, with a type that is at most
less precise. -/
theorem check_of_less_precise {e d e' : Expr} {ty : Ty} {Γ Δ : Context} {log : Log} {σ : CheckState}
    (hs : e.stores = []) (hle : e.Le d) (hΓ : Γ.Le Δ) (h : e.check ⟨Γ, log⟩ = .ok (ty, e') σ) (log' : Log) :
    ∃ ty₂ d' τ, d.check ⟨Δ, log'⟩ = .ok (ty₂, d') τ ∧ ty ≤ ty₂ ∧ σ.context.Le τ.context := by
  have hE : Elab ⟨Γ, log⟩ e ty e' σ := .of_check e h
  obtain ⟨ty₂, d', τ, hE₂, hty, hctx⟩ := hE.less_precise (τ := ⟨Δ, log'⟩) hs hle hΓ
  exact ⟨ty₂, d', τ, hE₂.check, hty, hctx⟩

def callOnCell (fTy : Option Ty) (xTy : Ty) : Expr :=
  .seq [
    .decl "f" fTy (.lam "x" xTy (some .int) (.binary .add (.var "x") (.const (.int 1)))),
    .cond (.binary .eq (.app (.var "f") (.deref (.var "cell"))) (.const (.int 3)))
      (.var "f")
      (.lam "y" .int none (.var "y"))]

theorem check_of_less_precise_callOnCell :
    let e := callOnCell (some (.fn .int .int)) .int
    let d := callOnCell (some .dyn) .dyn
    let Γ : Context := { current := ⟨[("cell", .ref .int)]⟩ }
    let Δ : Context := { current := ⟨[("cell", .dyn)]⟩ }
    e.stores = [] ∧ e.Le d ∧ Γ.Le Δ ∧ (∃ e' σ, e.check ⟨Γ, #[]⟩ = .ok (.fn .int .int, e') σ) ∧
      ∃ ty d' τ, d.check ⟨Δ, #[]⟩ = .ok (ty, d') τ ∧ .fn .int .int ≤ ty := by
  intro e d Γ Δ
  have hs : e.stores = [] := rfl
  have hle : e.Le d := by
    refine .seqCons (.decl (.some .dyn) (.lam .dyn (.some .refl) (.binary .var .const))) (.seqCons ?_ .seqNil)
    exact .cond (.binary (.app .var (.deref .var)) .const) .var (.lam .refl .none .var)
  have hΓ : Γ.Le Δ := by
    refine ⟨fun x => ?_, .nil⟩
    by_cases hx : x = "cell"
    · subst hx; exact .some .dyn
    · have hb : (x == "cell") = false := beq_false_of_ne hx
      simp only [Γ, Δ, Scope.find?, List.lookup_cons, hb, List.lookup_nil]
      exact .none
  have hc : ∃ e' σ, e.check ⟨Γ, #[]⟩ = .ok (.fn .int .int, e') σ := ⟨_, _, rfl⟩
  refine ⟨hs, hle, hΓ, hc, ?_⟩
  obtain ⟨e', σ, hc⟩ := hc
  obtain ⟨ty, d', τ, hd, hty, -⟩ := check_of_less_precise hs hle hΓ hc #[]
  exact ⟨ty, d', τ, hd, hty⟩

end Gradual

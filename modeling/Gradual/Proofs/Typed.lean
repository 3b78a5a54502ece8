import Gradual.Proofs.CheckFootprint

/-!
# Typing of checked trees

After checking, every operand has exactly the type that its place needs, by
itself or because of a cast. `Typed` is this static typing of checked trees,
and `Elab.typed` derives it from a successful check. What a type promises of
a value at runtime is left open: that is a `Discipline`.
-/

namespace Gradual

/-! ## Disciplines -/

/-- A value that fits a place has the kind that the place needs. -/
structure Sharp (fits : Ty → Ty → Prop) : Prop where
  bool : ∀ {ρ}, fits ρ .bool → ρ = .bool
  int : ∀ {ρ}, fits ρ .int → ρ = .int
  ref : ∀ {ρ cell}, fits ρ (.ref cell) → ρ = .ref cell
  fn : ∀ {ρ dom cod}, fits ρ (.fn dom cod) → ∃ a b, ρ = .fn a b ∧
    (∀ π, fits π dom → fits π a) ∧ ∀ π, fits π b → fits π cod

/-- What static types promise of the values at runtime. -/
structure Discipline where
  /-- A value whose own type is the first may stand where the second is expected. -/
  fits : Ty → Ty → Prop
  casts : Ty → Prop
  refl : ∀ τ, fits τ τ
  sharp : (∀ ρ τ, fits ρ τ) ∨ Sharp fits

namespace Discipline

/-- Types promise nothing; only names are kept track of. -/
def Blind (D : Discipline) : Prop :=
  ∀ ρ τ, D.fits ρ τ

theorem sharp_of_not_blind {D : Discipline} (h : ¬ D.Blind) : Sharp D.fits :=
  D.sharp.resolve_left h

end Discipline

/-! ## Layers -/

/-- A scope around a place in a tree, as `Outline` but with types. -/
structure Layer where
  scope : Scope Ty
  lets : List String
  live : Bool

namespace Layer

def outline (l : Layer) : Outline :=
  ⟨l.scope.names, l.lets, l.live⟩

def freeze (l : Layer) : Layer :=
  { l with live := false }

end Layer

/-- `x` stays what it is for a function that looks through these scopes. -/
def Clear (x : String) : List Layer → Prop
  | [] => True
  | l :: Γ => l.scope.binds x = true ∨ ((l.live = true ∨ x ∉ l.lets) ∧ Clear x Γ)

theorem any_binds_of_find {x : String} {ty : Ty} : ∀ {Γ : List Layer},
    Context.findIn x (Γ.map Layer.scope) = some ty →
      (Γ.map Layer.outline).any (·.bound.contains x) = true
  | [], h => by cases h
  | l :: Γ, h => by
    simp only [List.map_cons, Context.findIn] at h
    simp only [List.map_cons, List.any_cons, Bool.or_eq_true]
    cases hx : l.scope.find? x with
    | some ty' =>
      left
      simpa [Layer.outline] using Scope.binds_iff.mp (by rw [Scope.binds, hx]; rfl)
    | none => rw [hx] at h; exact .inr (any_binds_of_find h)

theorem clear_of_not_shadowed {x : String} {ty : Ty} : ∀ {Γ : List Layer},
    Context.findIn x (Γ.map Layer.scope) = some ty →
      shadowedLate x (Γ.map Layer.outline) = false → Clear x Γ
  | [], _, _ => trivial
  | l :: Γ, h, hs => by
    by_cases hb : l.scope.binds x = true
    · exact .inl hb
    · have hb' : l.scope.binds x = false := by simpa using hb
      have hc : l.scope.names.contains x = false := by
        simpa using fun hm => hb (Scope.binds_iff.mpr hm)
      simp only [List.map_cons, Context.findIn, Scope.find?_of_not_binds hb'] at h
      simp only [List.map_cons, shadowedLate, Layer.outline, hc, Bool.not_false, Bool.true_and,
        Bool.or_eq_false_iff, any_binds_of_find h, Bool.and_true] at hs
      refine .inr ⟨?_, clear_of_not_shadowed h hs.2⟩
      cases hl : l.live with
      | true => exact .inl rfl
      | false =>
        right
        simpa [hl] using hs.1

/-! ## Typing -/

/-- Where a tree stands: the scopes around its own, and what its own declares
sooner or later. -/
structure Place where
  around : List Layer
  lets : List String

namespace Place

/-- The scopes around a tree inside `P`, whose own scope is `s` by now. -/
def layers (P : Place) (s : Scope Ty) : List Layer :=
  ⟨s, P.lets, true⟩ :: P.around

end Place

def BinOp.Takes (op : BinOp) (lTy rTy ty : Ty) : Prop :=
  op.isEquality = true ∧ ty = .bool ∨ op.isEquality = false ∧ lTy = .int ∧ rTy = .int ∧ ty = op.resultTy

/-- The tree has the type at `P`, and running it turns the scope `s` it stands
in into `s'`. -/
inductive Typed (D : Discipline) : Place → Scope Ty → Expr → Ty → Scope Ty → Prop where
  | const {P s c} : Typed D P s (.const c) c.ty s
  | var {P s x ty} :
      Context.findIn x ((P.layers s).map Layer.scope) = some ty →
      (¬ D.Blind → Clear x (P.layers s)) → Typed D P s (.var x) ty s
  | binary {P s s₁ s₂ op l r lTy rTy ty} :
      Typed D P s l lTy s₁ → Typed D P s₁ r rTy s₂ → op.Takes lTy rTy ty →
      Typed D P s (.binary op l r) ty s₂
  | cond {P s s₁ st se c t e ty tLets eLets} :
      Typed D P s c .bool s₁ → Typed D ⟨P.layers s₁, tLets⟩ {} t ty st →
      Typed D ⟨P.layers s₁, eLets⟩ {} e ty se → Typed D P s (.cond c t e) ty s₁
  | lam {P s sb x xTy ret body bodyLets} :
      Typed D ⟨(P.layers s).map Layer.freeze, bodyLets⟩ ⟨[(x, xTy)]⟩ body ret sb →
      Typed D P s (.lam x xTy (some ret) body) (.fn xTy ret) s
  | app {P s s₁ s₂ f a dom cod} :
      Typed D P s f (.fn dom cod) s₁ → Typed D P s₁ a dom s₂ → Typed D P s (.app f a) cod s₂
  | seqNil {P s} : Typed D P s (.seq []) .unit s
  | seqOne {P s s₁ e ty} : Typed D P s e ty s₁ → Typed D P s (.seq [e]) ty s₁
  | seqMore {P s s₁ s₂ e ty₁ d es ty} :
      Typed D P s e ty₁ s₁ → Typed D P s₁ (.seq (d :: es)) ty s₂ →
      Typed D P s (.seq (e :: d :: es)) ty s₂
  | decl {P s s₁ x ann v ty} :
      Typed D P s v ty s₁ → s₁.binds x = false → x ∈ P.lets →
      Typed D P s (.decl x ann v) .unit (s₁.insert x ty)
  | assign {P s s₁ s₂ t v cell} :
      Typed D P s t (.ref cell) s₁ → Typed D P s₁ v cell s₂ →
      Typed D P s (.assign t v) (.ref cell) s₂
  | deref {P s s₁ t cell} : Typed D P s t (.ref cell) s₁ → Typed D P s (.deref t) cell s₁
  | alloc {P s s₁ v ty} : Typed D P s v ty s₁ → Typed D P s (.alloc v (some ty)) (.ref ty) s₁
  | print {P s s₁ v ty} : Typed D P s v ty s₁ → Typed D P s (.print v) .unit s₁
  | cast {P s s₁ e eTy ty} :
      Typed D P s e eTy s₁ → D.casts ty → Typed D P s (.cast ty e) ty s₁

/-! ## Checked trees are typed -/

theorem CheckState.pop_context {σ : CheckState} {s : Scope Ty} {rest : List (Scope Ty)}
    (h : σ.context.outer = s :: rest) : σ.pop.context = ⟨s, rest⟩ := by
  simp only [CheckState.pop, Context.pop, h]

theorem Elab.context {σ σ' : CheckState} {e e' : Expr} {ty : Ty} (h : Elab σ e ty e' σ') :
    σ'.context.outer = σ.context.outer ∧
      σ'.context.current.names = e.lets.reverse ++ σ.context.current.names := by
  have hadds := check_adding e σ trivial
  rw [h.check] at hadds
  exact ⟨hadds.outer, hadds.names⟩

theorem Typed.adjusted {D : Discipline} {P : Place} {s s' : Scope Ty} {e : Expr} {target found : Ty}
    (h : (∀ t ∈ e.castTargets, D.casts t) → Typed D P s e found s')
    (hc : ∀ t ∈ (e.adjusted target found).castTargets, D.casts t) :
    Typed D P s (e.adjusted target found) target s' := by
  unfold Expr.adjusted at hc ⊢
  split at hc
  · rename_i heq
    subst heq
    rw [if_pos rfl]
    exact h hc
  · rename_i hne
    rw [if_neg hne]
    simp only [Expr.gather, Expr.targetHere, List.singleton_append, List.forall_mem_cons] at hc
    exact .cast (h hc.2) hc.1

theorem map_freeze_outline (Γ : List Layer) :
    (Γ.map Layer.freeze).map Layer.outline = (Γ.map Layer.outline).map Outline.freeze := by
  simp only [List.map_map]; rfl

theorem live_freeze (Γ : List Layer) : ∀ l ∈ Γ.map Layer.freeze, l.live = false := by
  intro l hl
  obtain ⟨l', -, rfl⟩ := List.mem_map.mp hl
  rfl

theorem map_freeze_scope (Γ : List Layer) : (Γ.map Layer.freeze).map Layer.scope = Γ.map Layer.scope := by
  simp only [List.map_map]; rfl

/-- The tree is checked at `P` in the state `σ`; if types matter, none of its
functions has a name shadowed late. -/
structure Ready (D : Discipline) (P : Place) (σ : CheckState) (e : Expr) : Prop where
  around : P.around.map Layer.scope = σ.context.outer
  lets : ∀ x ∈ e.lets, x ∈ P.lets
  lexical : ¬ D.Blind →
    e.lexicalIn (P.around.map Layer.outline) P.lets σ.context.current.names = true

namespace Ready

variable {D : Discipline} {P : Place} {σ σ₁ : CheckState}

theorem find? {e : Expr} (h : Ready D P σ e) (x : String) :
    Context.findIn x ((P.layers σ.context.current).map Layer.scope) = σ.context.find? x := by
  simp only [Place.layers, List.map_cons, h.around, Context.find?]

theorem pair {e l r l' : Expr} {lTy : Ty} (h : Ready D P σ e) (hl : Elab σ l lTy l' σ₁)
    (hlets : e.lets = l.lets ++ r.lets)
    (hlex : ∀ os ls b, e.lexicalIn os ls b = (l.lexicalIn os ls b && r.lexicalIn os ls (l.lets.reverse ++ b))) :
    Ready D P σ l ∧ Ready D P σ₁ r := by
  obtain ⟨ho, hn⟩ := hl.context
  have hL := h.lets
  have hX := h.lexical
  rw [hlets, List.forall_mem_append] at hL
  simp only [hlex, Bool.and_eq_true, ← hn] at hX
  exact ⟨⟨h.around, hL.1, fun hb => (hX hb).1⟩, h.around.trans ho.symm, hL.2, fun hb => (hX hb).2⟩

theorem branch {e : Expr} (h : P.around.map Layer.scope = σ₁.context.outer) {ctx : CheckState}
    (hctx : ctx.context = σ₁.context)
    (hlex : ¬ D.Blind →
      e.lexicalIn ((P.layers σ₁.context.current).map Layer.outline) e.lets [] = true) :
    Ready D ⟨P.layers σ₁.context.current, e.lets⟩ ctx.push e := by
  refine ⟨?_, fun _ hx => hx, hlex⟩
  rw [CheckState.push, hctx]
  simp only [Place.layers, List.map_cons, h, Context.push]

end Ready

theorem clear_var {D : Discipline} {P : Place} {σ : CheckState} {x : String} {ty : Ty}
    (h : Ready D P σ (.var x)) (hx : σ.context.find? x = some ty) (hb : ¬ D.Blind) :
    Clear x (P.layers σ.context.current) := by
  by_cases hs : σ.context.current.binds x = true
  · exact .inl hs
  · have hs' : σ.context.current.binds x = false := by simpa using hs
    have hn : x ∉ σ.context.current.names := fun hm => hs (Scope.binds_iff.mpr hm)
    rw [← h.find? x] at hx
    simp only [Place.layers, List.map_cons, Context.findIn, Scope.find?_of_not_binds hs'] at hx
    have hlex := h.lexical hb
    simp only [Expr.lexicalIn, Bool.or_eq_true, List.contains_iff_mem, hn, false_or,
      Bool.not_eq_true'] at hlex
    exact .inr ⟨.inl rfl, clear_of_not_shadowed hx hlex⟩

theorem Elab.typed {D : Discipline} {σ σ' : CheckState} {e e' : Expr} {ty : Ty} (h : Elab σ e ty e' σ') :
    ∀ P : Place, Ready D P σ e → (∀ t ∈ e'.castTargets, D.casts t) →
      Typed D P σ.context.current e' ty σ'.context.current := by
  induction h with
  | const => intro P _ _; exact .const
  | var hx => intro P hr _; exact .var ((hr.find? _).trans hx) (clear_var hr hx)
  | equality hop hl _ _ ihl ihr =>
    intro P hr hc
    obtain ⟨rl, rr⟩ := hr.pair hl rfl fun _ _ _ => rfl
    simp only [Expr.gather, Expr.targetHere, List.nil_append, List.forall_mem_append] at hc
    exact .binary (ihl P rl hc.1) (ihr P rr hc.2) (.inl ⟨hop, rfl⟩)
  | integer hop hl _ _ _ ihl ihr =>
    intro P hr hc
    obtain ⟨rl, rr⟩ := hr.pair hl rfl fun _ _ _ => rfl
    simp only [Expr.gather, Expr.targetHere, List.nil_append, List.forall_mem_append] at hc
    simp only [CheckState.adjusted_context]
    exact .binary (.adjusted (ihl P rl) hc.1) (.adjusted (ihr P rr) hc.2) (.inr ⟨hop, rfl, rfl, rfl⟩)
  | @cond σ σ₁ σ₂ σ₃ c t e c' t' e' cTy tTy eTy hce _ hte hee ihc iht ihe =>
    intro P hr hc
    obtain ⟨ho, hn⟩ := hce.context
    have hlex := hr.lexical
    simp only [Expr.lexicalIn, Bool.and_eq_true, ← hn] at hlex
    simp only [Expr.gather, Expr.targetHere, List.nil_append, List.forall_mem_append] at hc
    -- Both branches are checked inside the scopes that the test leaves behind.
    have hΓ : P.around.map Layer.scope = σ₁.context.outer := hr.around.trans ho.symm
    have hp₁ : (σ₁.adjusted .condition .bool cTy).context = σ₁.context := by simp
    have hp₂ : σ₂.pop.context = σ₁.context := by
      rw [CheckState.pop_context hte.context.1, hp₁]
    have hp₃ : σ₃.pop.context = σ₁.context := by
      rw [CheckState.pop_context hee.context.1, hp₂]
    have rt := Ready.branch hΓ hp₁ fun hb => (hlex hb).2.1
    have re := Ready.branch hΓ hp₂ fun hb => (hlex hb).2.2
    simp only [CheckState.adjusted_context, hp₃]
    exact .cond (.adjusted (ihc P ⟨hr.around, hr.lets, fun hb => (hlex hb).1⟩) hc.1)
      (.adjusted (iht _ rt) hc.2.1) (.adjusted (ihe _ re) hc.2.2)
  | @lam σ σ₁ x xTy ret body body' bodyTy hbody _ ih =>
    intro P hr hc
    simp only [Expr.gather, Expr.targetHere, List.nil_append] at hc
    have hp : σ₁.pop.context = σ.context := CheckState.pop_context hbody.context.1
    simp only [CheckState.adjusted_context, hp]
    have rb : Ready D ⟨(P.layers σ.context.current).map Layer.freeze, body.lets⟩
        (σ.push.bind x xTy) body := by
      refine ⟨?_, fun _ hx => hx, ?_⟩
      · rw [map_freeze_scope]
        simp only [Place.layers, List.map_cons, hr.around]
        rfl
      · rw [map_freeze_outline]
        exact hr.lexical
    exact .lam (.adjusted (ih _ rb) hc)
  | app hf _ _ ihf iha =>
    intro P hr hc
    obtain ⟨rf, ra⟩ := hr.pair hf rfl fun _ _ _ => rfl
    simp only [Expr.gather, Expr.targetHere, List.nil_append, List.forall_mem_append] at hc
    simp only [CheckState.adjusted_context]
    exact .app (ihf P rf hc.1) (.adjusted (iha P ra) hc.2)
  | appDyn hf _ ihf iha =>
    intro P hr hc
    obtain ⟨rf, ra⟩ := hr.pair hf rfl fun _ _ _ => rfl
    simp only [Expr.gather, Expr.targetHere, List.nil_append, List.forall_mem_append,
      List.singleton_append, List.forall_mem_cons] at hc
    exact .app (.cast (ihf P rf hc.1.2) hc.1.1) (iha P ra hc.2)
  | seqNil => intro P _ _; exact .seqNil
  | seqOne _ ih =>
    intro P hr hc
    simp only [Expr.gather, Expr.targetHere, Expr.gatherAll, List.nil_append, List.append_nil] at hc
    refine .seqOne (ih P ⟨hr.around, ?_, fun hb => ?_⟩ hc)
    · simpa [Expr.lets, Expr.letsAll] using hr.lets
    · simpa [Expr.lexicalIn, Expr.lexicalAll] using hr.lexical hb
  | @seqMore σ σ₁ σ₂ e e' ty₁ d es es' ty he hs ihe ihs =>
    intro P hr hc
    obtain ⟨re, rs⟩ := hr.pair (r := .seq (d :: es)) he rfl fun _ _ _ => rfl
    simp only [Expr.gather, Expr.targetHere, Expr.gatherAll, List.nil_append, List.forall_mem_append] at hc
    cases hs with
    | seqOne h => exact .seqMore (ihe P re hc.1) (ihs P rs hc.2)
    | seqMore h₁ h₂ => exact .seqMore (ihe P re hc.1) (ihs P rs hc.2)
  | decl _ _ hx ih =>
    intro P hr hc
    have hlets := hr.lets
    simp only [Expr.lets, List.forall_mem_append, List.forall_mem_singleton] at hlets
    simp only [Expr.gather, Expr.targetHere, List.nil_append] at hc
    simp only [CheckState.bind, CheckState.adjusted_context]
    exact .decl (.adjusted (ih P ⟨hr.around, hlets.1, hr.lexical⟩) hc) hx hlets.2
  | assign ht _ _ iht ihv =>
    intro P hr hc
    obtain ⟨rt, rv⟩ := hr.pair ht rfl fun _ _ _ => rfl
    simp only [Expr.gather, Expr.targetHere, List.nil_append, List.forall_mem_append] at hc
    simp only [CheckState.adjusted_context]
    exact .assign (iht P rt hc.1) (.adjusted (ihv P rv) hc.2)
  | assignDyn ht _ iht ihv =>
    intro P hr hc
    obtain ⟨rt, rv⟩ := hr.pair ht rfl fun _ _ _ => rfl
    simp only [Expr.gather, Expr.targetHere, List.nil_append, List.forall_mem_append,
      List.singleton_append, List.forall_mem_cons] at hc
    exact .assign (.cast (iht P rt hc.1.2) hc.1.1) (ihv P rv hc.2)
  | deref _ ih => intro P hr hc; exact .deref (ih P ⟨hr.around, hr.lets, hr.lexical⟩ hc)
  | derefDyn _ ih =>
    intro P hr hc
    simp only [Expr.gather, Expr.targetHere, List.nil_append, List.singleton_append,
      List.forall_mem_cons] at hc
    exact .deref (.cast (ih P ⟨hr.around, hr.lets, hr.lexical⟩ hc.2) hc.1)
  | alloc _ ih => intro P hr hc; exact .alloc (ih P ⟨hr.around, hr.lets, hr.lexical⟩ hc)
  | print _ ih => intro P hr hc; exact .print (ih P ⟨hr.around, hr.lets, hr.lexical⟩ hc)
  | cast _ ih =>
    intro P hr hc
    simp only [Expr.gather, Expr.targetHere, List.singleton_append, List.forall_mem_cons] at hc
    exact .cast (ih P ⟨hr.around, hr.lets, hr.lexical⟩ hc.2) hc.1

end Gradual

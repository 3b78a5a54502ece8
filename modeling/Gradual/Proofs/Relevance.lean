import Gradual.Proofs.LogFree

/-!
# What a check depends on

A check asks a context two things about a name: what it means, and whether the
current scope binds it. It asks them of the names that occur in the tree only,
so contexts that give the same answers are alike to it, however many scopes
they have and whatever else these bind (`check_of_agreeing`).
-/

namespace Gradual

def answer {ε σ α : Type} : EStateM.Result ε σ α → Except ε α
  | .ok a _ => .ok a
  | .error e _ => .error e

theorem Alike.answer {ε σ τ α : Type} {view : σ → τ} {r r' : EStateM.Result ε σ α} (h : Alike view r r') :
    Gradual.answer r = Gradual.answer r' := by
  cases h <;> rfl

theorem Alike.finalState {ε σ τ α : Type} {view : σ → τ} {r r' : EStateM.Result ε σ α} (h : Alike view r r') :
    view (Gradual.finalState r) = view (Gradual.finalState r') := by
  cases h with
  | ok h => exact h
  | error h => exact h

namespace Context

/-- What each of `names` means, and whether the current scope binds it. -/
def glimpse (names : List String) (Γ : Context) : {x // x ∈ names} → Except ScopeError Ty × Bool :=
  fun x => (Γ.resolve x, Γ.current.binds x)

variable {names : List String} {Γ Γ' : Context} {x : String}

theorem glimpse_eq_iff : Γ.glimpse names = Γ'.glimpse names ↔
    ∀ x ∈ names, Γ.resolve x = Γ'.resolve x ∧ Γ.current.binds x = Γ'.current.binds x := by
  simp only [funext_iff, glimpse, Prod.mk.injEq, Subtype.forall]

theorem resolve_eq_iff : Γ.resolve x = Γ'.resolve x ↔ Γ.find? x = Γ'.find? x := by
  unfold resolve
  cases Γ.find? x <;> cases Γ'.find? x <;> simp

theorem find?_bind (Γ : Context) (x y : String) (ty : Ty) :
    (Γ.bind x ty).find? y = if y = x then some ty else Γ.find? y := by
  simp only [bind, Context.find?, findIn, Scope.find?_insert]
  by_cases h : y = x <;> simp [h]

theorem find?_push (Γ : Context) (x : String) : Γ.push.find? x = Γ.find? x := rfl

theorem binds_bind (Γ : Context) (x y : String) (ty : Ty) :
    (Γ.bind x ty).current.binds y = (decide (y = x) || Γ.current.binds y) := by
  simp only [bind, Scope.binds, Scope.find?_insert]
  by_cases h : y = x <;> simp [h]

theorem sight_glimpse (names : List String) : Sight names (glimpse names) := by
  refine ⟨fun hx h => ?_, fun hx h => ?_, fun {Γ Γ' x} ty hx h => ?_, fun h => ?_⟩
  · exact resolve_eq_iff.mp (glimpse_eq_iff.mp h _ hx).1
  · exact (glimpse_eq_iff.mp h _ hx).2
  · rw [glimpse_eq_iff] at h ⊢
    intro y hy
    obtain ⟨hfind, hbinds⟩ := h y hy
    rw [resolve_eq_iff] at hfind ⊢
    simp only [find?_bind, binds_bind, hfind, hbinds, and_self]
  · rw [glimpse_eq_iff] at h ⊢
    intro y hy
    refine ⟨?_, rfl⟩
    rw [resolve_eq_iff, find?_push, find?_push]
    exact resolve_eq_iff.mp (h y hy).1

end Context

/-- Two contexts in which every name of a tree means the same and is bound, or
not, by the current scope alike: the check of the tree ends with the same type
and the same tree in both, or with the same error, and the two still agree on
the names of the tree afterwards. -/
theorem check_of_agreeing {e : Expr} {Γ Γ' : Context}
    (h : ∀ x ∈ e.names, Γ.resolve x = Γ'.resolve x ∧ Γ.current.binds x = Γ'.current.binds x) (log log' : Log) :
    let out := e.check ⟨Γ, log⟩
    let out' := e.check ⟨Γ', log'⟩
    answer out = answer out' ∧
      ∀ x ∈ e.names,
        (finalState out).context.resolve x = (finalState out').context.resolve x ∧
        (finalState out).context.current.binds x = (finalState out').context.current.binds x := by
  intro out out'
  have hsees := check_sees (Context.sight_glimpse e.names) e fun _ hx => hx
  have halike := hsees ⟨Γ, log⟩ ⟨Γ', log'⟩ (Context.glimpse_eq_iff.mpr h)
  exact ⟨halike.answer, Context.glimpse_eq_iff.mp halike.finalState⟩

def shadowLater : Expr :=
  .seq [
    .decl "y" none (.binary .add (.var "x") (.const (.int 1))),
    .decl "x" (some .dyn) (.var "y"),
    .lam "z" .dyn none (.binary .sub (.var "z") (.var "x"))]

def shadowLaterChecked : Expr :=
  .seq [
    .decl "y" none (.binary .add (.var "x") (.const (.int 1))),
    .decl "x" (some .dyn) (.cast .dyn (.var "y")),
    .lam "z" .dyn (some .int) (.binary .sub (.cast .int (.var "z")) (.cast .int (.var "x")))]

def twoScopes : Context :=
  { outer := [⟨[("x", .int)]⟩] }

def fourScopes : Context :=
  { current := ⟨[("w", .bool)]⟩
    outer := [{}, ⟨[("w", .string), ("x", .int)]⟩, ⟨[("x", .string)]⟩] }

theorem check_of_agreeing_shadowLater :
    (∀ x ∈ shadowLater.names, twoScopes.resolve x = fourScopes.resolve x ∧
      twoScopes.current.binds x = fourScopes.current.binds x) ∧
    answer (shadowLater.check ⟨twoScopes, #[]⟩) = .ok (.fn .dyn .int, shadowLaterChecked) ∧
    answer (shadowLater.check ⟨fourScopes, #[]⟩) = .ok (.fn .dyn .int, shadowLaterChecked) := by
  have hagree : ∀ x ∈ shadowLater.names, twoScopes.resolve x = fourScopes.resolve x ∧
      twoScopes.current.binds x = fourScopes.current.binds x := by
    simp only [Context.resolve_eq_iff]
    decide
  have hsame := (check_of_agreeing hagree #[] #[]).1
  exact ⟨hagree, rfl, hsame.symm⟩

end Gradual

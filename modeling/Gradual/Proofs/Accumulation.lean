import Gradual.Proofs.Growth

/-!
# Actions that add names

An action that adds names one by one may fail on the way. It accumulates
`names` when it adds all of them if it succeeds and a first part of them if it
fails. Two such actions in a row accumulate the names of both.
-/

namespace Gradual

variable {ε σ α β : Type} {P : σ → Prop} {R : List String → σ → σ → Prop}

/-- In a state with `P`, the action adds just `names` in the sense of `R`, or a
first part of them if it fails. -/
def Accumulates (P : σ → Prop) (R : List String → σ → σ → Prop) (names : List String)
    (x : EStateM ε σ α) : Prop :=
  ∀ s, P s →
    match x s with
    | .ok _ s' => R names s s'
    | .error _ s' => ∃ added, added <+: names ∧ R added s s'

structure Accumulation (P : σ → Prop) (R : List String → σ → σ → Prop) : Prop where
  keeps : ∀ {added s s'}, R added s s' → P s → P s'
  trans : ∀ {added more s s' s''}, R added s s' → R more s' s'' → R (added ++ more) s s''

namespace Accumulates

variable {names more : List String} {x : EStateM ε σ α} {g : α → EStateM ε σ β}

theorem bind (hR : Accumulation P R) (hx : Accumulates P R names x) (hg : ∀ a, Accumulates P R more (g a)) :
    Accumulates P R (names ++ more) (x >>= g) := by
  intro s hs
  have hxs := hx s hs
  simp only [Bind.bind, EStateM.bind]
  cases h : x s with
  | error err s₁ =>
    rw [h] at hxs
    obtain ⟨added, hp, hadds⟩ := hxs
    exact ⟨added, hp.trans (List.prefix_append _ _), hadds⟩
  | ok a s₁ =>
    rw [h] at hxs
    have hgs := hg a s₁ (hR.keeps hxs hs)
    simp only
    cases h' : g a s₁ with
    | ok b s₂ =>
      rw [h'] at hgs
      exact hR.trans hxs hgs
    | error err s₂ =>
      -- All of `names` are there by then.
      rw [h'] at hgs
      obtain ⟨added, hp, hadds⟩ := hgs
      exact ⟨names ++ added, (List.prefix_append_right_inj names).mpr hp, hR.trans hxs hadds⟩

theorem final (hx : Accumulates P R names x) {s : σ} (hs : P s) :
    ∃ added, added <+: names ∧ R added s (finalState (x s)) ∧ ∀ a s', x s = .ok a s' → added = names := by
  have hxs := hx s hs
  cases h : x s with
  | ok a s' =>
    rw [h] at hxs
    exact ⟨names, List.prefix_rfl, hxs, fun _ _ _ => rfl⟩
  | error err s' =>
    rw [h] at hxs
    obtain ⟨added, hp, hadds⟩ := hxs
    exact ⟨added, hp, hadds, fun _ _ hok => by cases hok⟩

end Accumulates

end Gradual

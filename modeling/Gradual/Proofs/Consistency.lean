import Gradual.Ty.Consistency

/-!
# Facts about consistency

Consistency is reflexive, and it is equality wherever the second type is
neither `?` nor a function type. For function types it is weaker than what a
caller relies on, which is `Ty.Fits`.
-/

namespace Gradual.Ty

theorem consistent_refl : ∀ ty : Ty, ty.consistent ty = true
  | .dyn | .bool | .int | .string | .unit | .ref _ => by simp [consistent]
  | .fn a b => by simp [consistent, consistent_refl a, consistent_refl b]

theorem eq_of_consistent {σ τ : Ty} (hd : σ ≠ .dyn) (ht : τ ≠ .dyn) (hf : τ.isFn = false)
    (h : σ.consistent τ = true) : σ = τ := by
  cases σ <;> cases τ <;> simp_all [consistent, isFn]

def mentionsDyn : Ty → Bool
  | .dyn => true
  | .fn dom cod => dom.mentionsDyn || cod.mentionsDyn
  | .ref cell => cell.mentionsDyn
  | _ => false

theorem eq_of_consistent_of_definite {σ τ : Ty} (hσ : σ.mentionsDyn = false) (hτ : τ.mentionsDyn = false)
    (h : σ.consistent τ = true) : σ = τ := by
  have hdyn : ∀ {ρ : Ty}, ρ.mentionsDyn = false → ρ ≠ .dyn := by
    rintro ρ hρ rfl
    simp [mentionsDyn] at hρ
  induction τ generalizing σ with
  | fn c d ihc ihd =>
    cases σ with
    | fn a b =>
      simp only [mentionsDyn, Bool.or_eq_false_iff] at hσ hτ
      simp only [consistent, Bool.and_eq_true] at h
      rw [ihc hσ.1 hτ.1 h.1, ihd hσ.2 hτ.2 h.2]
    | dyn => exact absurd rfl (hdyn hσ)
    | _ => simp [consistent] at h
  | _ => exact eq_of_consistent (hdyn hσ) (hdyn hτ) rfl h

/-! ## Fitting -/

/-- A value of the first type may stand where the second is expected. Domains
go the other way round: a function has to take whatever the caller may give. -/
inductive Fits : Ty → Ty → Prop where
  | refl {σ} : Fits σ σ
  | dyn {σ} : Fits σ .dyn
  | fn {a b c d} : Fits c a → Fits b d → Fits (.fn a b) (.fn c d)

theorem Fits.fn_inv {ρ c d : Ty} (h : ρ.Fits (.fn c d)) : ∃ a b, ρ = .fn a b ∧ c.Fits a ∧ b.Fits d := by
  cases h with
  | refl => exact ⟨c, d, rfl, .refl, .refl⟩
  | fn hdom hcod => exact ⟨_, _, rfl, hdom, hcod⟩

theorem fits_fn {a b c d : Ty} : (Ty.fn a b).Fits (.fn c d) ↔ c.Fits a ∧ b.Fits d := by
  constructor
  · intro h
    obtain ⟨a', b', heq, hdom, hcod⟩ := h.fn_inv
    cases heq
    exact ⟨hdom, hcod⟩
  · rintro ⟨hdom, hcod⟩
    exact .fn hdom hcod

theorem fits_iff_eq {σ τ : Ty} (h : ∀ a b c d, σ = .fn a b → τ ≠ .fn c d) : σ.Fits τ ↔ τ = .dyn ∨ σ = τ := by
  constructor
  · intro hfit
    cases hfit with
    | refl => exact .inr rfl
    | dyn => exact .inl rfl
    | fn _ _ => exact absurd rfl (h _ _ _ _ rfl)
  · rintro (rfl | rfl)
    · exact .dyn
    · exact .refl

/-- Whether the first type fits the second, or with `flip` the second the first. -/
def fits (flip : Bool) : Ty → Ty → Bool
  | .fn a b, .fn c d => a.fits (!flip) c && b.fits flip d
  | σ, τ => (if flip then σ else τ) == .dyn || σ == τ

theorem fits_iff (flip : Bool) (σ τ : Ty) : σ.fits flip τ = true ↔ if flip then τ.Fits σ else σ.Fits τ := by
  fun_induction fits flip σ τ with
  | case1 flip a b c d iha ihb =>
    rw [Bool.and_eq_true, iha, ihb]
    cases flip with
    | false => exact fits_fn.symm
    | true => exact fits_fn.symm
  | case2 flip σ τ hfn =>
    rw [Bool.or_eq_true, beq_iff_eq, beq_iff_eq]
    cases flip with
    | false => exact (fits_iff_eq fun a b c d h h' => hfn a b c d h h').symm
    | true =>
      rw [eq_comm (a := σ) (b := τ)]
      exact (fits_iff_eq fun a b c d h h' => hfn c d a b h' h).symm

instance (σ τ : Ty) : Decidable (σ.Fits τ) :=
  decidable_of_iff _ (fits_iff false σ τ)

theorem Fits.trans {ρ σ τ : Ty} (h : ρ.Fits σ) (h' : σ.Fits τ) : ρ.Fits τ := by
  induction σ generalizing ρ τ with
  | fn c d ihc ihd =>
    obtain ⟨a, b, rfl, hdom, hcod⟩ := h.fn_inv
    cases h' with
    | refl => exact .fn hdom hcod
    | dyn => exact .dyn
    | fn hdom' hcod' => exact .fn (ihc hdom' hdom) (ihd hcod hcod')
  | dyn => cases h' <;> exact .dyn
  | bool | int | string | unit | ref _ _ =>
    cases h
    exact h'

theorem consistent_symm (σ τ : Ty) : σ.consistent τ = τ.consistent σ := by
  fun_induction Ty.consistent σ τ with
  | case1 τ => cases τ <;> rfl
  | case2 σ _ => rfl
  | case3 a b c d iha ihb => rw [iha, ihb, Ty.consistent]
  | case4 σ τ hσ hτ hfn =>
    rw [Ty.consistent, BEq.comm]
    · exact hτ
    · exact hσ
    · exact fun a b c d h h' => hfn c d a b h' h

theorem Fits.consistent {σ τ : Ty} (h : σ.Fits τ) : σ.consistent τ = true := by
  induction h with
  | refl => exact consistent_refl _
  | @dyn σ => cases σ <;> rfl
  | @fn a b c d _ _ ihc ihd => simp only [Ty.consistent, consistent_symm a c, ihc, ihd, Bool.and_true]

end Gradual.Ty

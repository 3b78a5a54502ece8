import Gradual.Eval.State
import Gradual.Proofs.Consistency
import Mathlib.Order.Lattice

/-!
# Precision

`a ≤ b` says that `b` is `a` with some parts replaced by `?`, none of them
inside a reference. The join of two types is the least type above both, and
two types are consistent just when some type is below both. Consistency is
therefore kept when types become less precise, although it is not transitive:
a cast to the join of two types passes every value that is consistent with one
of them.
-/

namespace Gradual.Ty

inductive Le : Ty → Ty → Prop where
  | refl {a} : Le a a
  | dyn {a} : Le a .dyn
  | fn {a b c d} : Le a c → Le b d → Le (.fn a b) (.fn c d)

theorem Le.of_fn {a b t : Ty} (h : Le (.fn a b) t) : t = .dyn ∨ ∃ c d, t = .fn c d ∧ Le a c ∧ Le b d := by
  cases h with
  | refl => exact .inr ⟨a, b, rfl, .refl, .refl⟩
  | dyn => exact .inl rfl
  | fn hdom hcod => exact .inr ⟨_, _, rfl, hdom, hcod⟩

theorem Le.of_dyn {t : Ty} (h : Le .dyn t) : t = .dyn := by
  cases h <;> rfl

theorem Le.trans {a b c : Ty} (h : Le a b) (h' : Le b c) : Le a c := by
  induction h generalizing c with
  | refl => exact h'
  | dyn => rw [h'.of_dyn]; exact .dyn
  | fn _ _ ihdom ihcod =>
    obtain rfl | ⟨p, q, rfl, hdom, hcod⟩ := h'.of_fn
    · exact .dyn
    · exact .fn (ihdom hdom) (ihcod hcod)

theorem Le.antisymm {a b : Ty} (h : Le a b) (h' : Le b a) : a = b := by
  induction h with
  | refl => rfl
  | dyn => exact h'.of_dyn
  | fn _ _ ihdom ihcod =>
    cases h' with
    | refl => rfl
    | fn hdom hcod => rw [ihdom hdom, ihcod hcod]

instance : PartialOrder Ty where
  le := Le
  le_refl _ := .refl
  le_trans _ _ _ := Le.trans
  le_antisymm _ _ := Le.antisymm

/-! ## Places in a type -/

/-- The type with `?` at each of the given places. The turns to a place go into
the domain (`false`) or the codomain (`true`) of a function; no place is inside
a reference. -/
def blur : Ty → (List Bool → Bool) → Ty
  | .fn a b, places =>
    if places [] then .dyn
    else .fn (a.blur fun turns => places (false :: turns)) (b.blur fun turns => places (true :: turns))
  | ty, places => if places [] then .dyn else ty

theorem le_blur (a : Ty) (places : List Bool → Bool) : a ≤ a.blur places := by
  fun_induction blur a places with
  | case1 a b places _ => exact .dyn
  | case2 a b places _ iha ihb => exact .fn iha ihb
  | case3 a places _ _ => exact .dyn
  | case4 a places _ _ => exact .refl

theorem blur_nowhere (a : Ty) : a.blur (fun _ => false) = a := by
  induction a with
  | fn a b iha ihb => simp [blur, iha, ihb]
  | _ => simp [blur]

theorem blur_here {a : Ty} {places : List Bool → Bool} (h : places [] = true) : a.blur places = .dyn := by
  cases a <;> simp [blur, h]

def fnPlaces (dom cod : List Bool → Bool) : List Bool → Bool
  | [] => false
  | false :: turns => dom turns
  | true :: turns => cod turns

theorem exists_blur_of_le {a b : Ty} (h : a ≤ b) : ∃ places, a.blur places = b := by
  induction h with
  | refl => exact ⟨fun _ => false, blur_nowhere _⟩
  | dyn => exact ⟨fun _ => true, blur_here rfl⟩
  | fn _ _ ihdom ihcod =>
    obtain ⟨dom, hdom⟩ := ihdom
    obtain ⟨cod, hcod⟩ := ihcod
    refine ⟨fnPlaces dom cod, ?_⟩
    simp [blur, fnPlaces, hdom, hcod]

theorem le_iff_exists_blur {a b : Ty} : a ≤ b ↔ ∃ places, a.blur places = b := by
  refine ⟨exists_blur_of_le, ?_⟩
  rintro ⟨places, rfl⟩
  exact le_blur a places

/-! ## Joins -/

theorem le_join_left (a b : Ty) : a ≤ a.join b := by
  fun_induction join a b with
  | case1 a b c d iha ihb => exact .fn iha ihb
  | case2 a _ => exact .refl
  | case3 a b _ _ => exact .dyn

theorem le_join_right (a b : Ty) : b ≤ a.join b := by
  fun_induction join a b with
  | case1 a b c d iha ihb => exact .fn iha ihb
  | case2 a _ => exact .refl
  | case3 a b _ _ => exact .dyn

theorem join_le {a b c : Ty} (ha : a ≤ c) (hb : b ≤ c) : a.join b ≤ c := by
  fun_induction join a b generalizing c with
  | case1 a b a' b' iha ihb =>
    obtain rfl | ⟨p, q, rfl, hdom, hcod⟩ := ha.of_fn
    · exact .dyn
    · obtain h | ⟨_, _, h, hdom', hcod'⟩ := hb.of_fn
      · cases h
      · cases h
        exact .fn (iha hdom hdom') (ihb hcod hcod')
  | case2 a _ => exact ha
  | case3 a b hfn hne =>
    -- Only `?` is above two types that differ and are not both functions.
    cases ha with
    | dyn => exact .dyn
    | refl =>
      cases hb with
      | refl => exact absurd rfl hne
      | dyn => exact .dyn
      | fn _ _ => exact absurd rfl (hfn _ _ _ _ rfl)
    | fn _ _ =>
      cases hb with
      | refl => exact absurd rfl (hfn _ _ _ _ rfl)
      | fn _ _ => exact absurd rfl (hfn _ _ _ _ rfl)

instance : SemilatticeSup Ty where
  sup := join
  le_sup_left := le_join_left
  le_sup_right := le_join_right
  sup_le _ _ _ := join_le

theorem join_mono {a b a' b' : Ty} (ha : a ≤ a') (hb : b ≤ b') : a.join b ≤ a'.join b' :=
  sup_le_sup ha hb

theorem le_iff_join_eq {a b : Ty} : a ≤ b ↔ a.join b = b :=
  sup_eq_right.symm

instance : DecidableLE Ty :=
  fun _ _ => decidable_of_iff _ le_iff_join_eq.symm

/-- In the order of replacing parts by `?`, the join of two types is their
least upper bound, with the laws that follow. -/
theorem join_least_upper_bound (a b c : Ty) :
    (a ≤ b ↔ ∃ places, a.blur places = b) ∧
    a ≤ a.join b ∧ b ≤ a.join b ∧ (a ≤ c → b ≤ c → a.join b ≤ c) ∧
    a.join b = b.join a ∧ a.join a = a ∧ (a.join b).join c = a.join (b.join c) ∧
    (a ≤ b ↔ a.join b = b) ∧
    ∀ a' b', a ≤ a' → b ≤ b' → a.join b ≤ a'.join b' := by
  refine ⟨le_iff_exists_blur, le_join_left a b, le_join_right a b, join_le, ?_, ?_, ?_, le_iff_join_eq, ?_⟩
  · exact sup_comm a b
  · exact sup_idem a
  · exact sup_assoc a b c
  · intro a' b' ha hb
    exact join_mono ha hb

theorem join_least_upper_bound_curried :
    let a : Ty := .fn (.ref .dyn) (.fn .int .bool)
    let b : Ty := .fn (.ref .int) (.fn .int .string)
    let c : Ty := .fn .dyn (.fn .int .dyn)
    a.join b = c ∧ a ≤ c ∧ b ≤ c ∧ ¬ .ref .int ≤ (.ref .dyn : Ty) ∧ a.join b ≤ c ∧
      a.join c ≤ c.join (.fn .dyn .dyn) := by
  intro a b c
  have ha : a ≤ c := by decide
  have hb : b ≤ c := by decide
  have hc : c ≤ .fn .dyn .dyn := by decide
  obtain ⟨-, -, -, hleast, -⟩ := join_least_upper_bound a b c
  obtain ⟨-, -, -, -, -, -, -, -, hmono⟩ := join_least_upper_bound a c c
  exact ⟨by decide, ha, hb, by decide, hleast ha hb, hmono c _ ha hc⟩

/-! ## Consistency -/

theorem consistent_dyn (a : Ty) : a.consistent .dyn = true := by
  cases a <;> rfl

theorem consistent_of_le {a b c : Ty} (ha : c ≤ a) (hb : c ≤ b) : a.consistent b = true := by
  induction ha generalizing b with
  | dyn => rfl
  | @refl c =>
    induction hb with
    | refl => exact consistent_refl _
    | dyn => exact consistent_dyn _
    | fn _ _ ihdom ihcod => simp only [consistent, ihdom, ihcod, Bool.and_self]
  | fn hdom hcod ihdom ihcod =>
    obtain rfl | ⟨p, q, rfl, hdom', hcod'⟩ := hb.of_fn
    · exact consistent_dyn _
    · simp only [consistent, ihdom hdom', ihcod hcod', Bool.and_self]

theorem exists_le_of_consistent {a b : Ty} (h : a.consistent b = true) : ∃ c : Ty, c ≤ a ∧ c ≤ b := by
  fun_induction consistent a b with
  | case1 b => exact ⟨b, .dyn, .refl⟩
  | case2 a _ => exact ⟨a, .refl, .dyn⟩
  | case3 a b c d iha ihb =>
    rw [Bool.and_eq_true] at h
    obtain ⟨p, hpa, hpc⟩ := iha h.1
    obtain ⟨q, hqb, hqd⟩ := ihb h.2
    exact ⟨.fn p q, .fn hpa hqb, .fn hpc hqd⟩
  | case4 a b _ _ _ =>
    have heq : a = b := by simpa using h
    exact ⟨a, .refl, heq ▸ .refl⟩

theorem consistent_mono {a b a' b' : Ty} (ha : a ≤ a') (hb : b ≤ b') (h : a.consistent b = true) :
    a'.consistent b' = true := by
  obtain ⟨c, hca, hcb⟩ := exists_le_of_consistent h
  exact consistent_of_le (hca.trans ha) (hcb.trans hb)

theorem consistent_join_left {t a : Ty} (h : t.consistent a = true) (b : Ty) : t.consistent (a.join b) = true :=
  consistent_mono .refl (le_join_left a b) h

theorem consistent_join_right {t b : Ty} (h : t.consistent b = true) (a : Ty) : t.consistent (a.join b) = true :=
  consistent_mono .refl (le_join_right a b) h

theorem consistent_iff_eq {a b : Ty} (ha : a.mentionsDyn = false) (hb : b.mentionsDyn = false) :
    a.consistent b = true ↔ a = b := by
  refine ⟨eq_of_consistent_of_definite ha hb, ?_⟩
  rintro rfl
  exact consistent_refl a

/-! ## Casts -/

theorem castTo_passes {s : State} {v : Value} {target : Ty} (h : (s.cells.typeOf v).consistent target = true) :
    EvalM.castTo target v s = .ok v s := by
  simp only [EvalM.castTo, get_bind_run, h, ite_true]
  rfl

/-- Two types are consistent when there is a type that is as precise as both.
So consistency is kept by less precise types, joins among them, and a value that
is consistent with the type of a branch passes a cast to the join with the type
of the other. -/
theorem consistent_iff_common_precise (a b : Ty) :
    (a.consistent b = true ↔ ∃ c : Ty, c ≤ a ∧ c ≤ b) ∧
    a.consistent a = true ∧ a.consistent b = b.consistent a ∧
    (∀ a' b', a.consistent b = true → a ≤ a' → b ≤ b' → a'.consistent b' = true) ∧
    (∀ t : Ty, t.consistent a = true ∨ t.consistent b = true → t.consistent (a.join b) = true) ∧
    (∀ (s : State) (v : Value), (s.cells.typeOf v).consistent a = true ∨ (s.cells.typeOf v).consistent b = true →
      EvalM.castTo (a.join b) v s = .ok v s) ∧
    (a.mentionsDyn = false → b.mentionsDyn = false → (a.consistent b = true ↔ a = b)) := by
  have hjoin : ∀ t : Ty, t.consistent a = true ∨ t.consistent b = true → t.consistent (a.join b) = true := by
    rintro t (ha | hb)
    · exact consistent_join_left ha b
    · exact consistent_join_right hb a
  refine ⟨⟨exists_le_of_consistent, ?_⟩, consistent_refl a, consistent_symm a b, ?_, hjoin, ?_,
    consistent_iff_eq⟩
  · rintro ⟨c, hca, hcb⟩
    exact consistent_of_le hca hcb
  · intro a' b' h ha hb
    exact consistent_mono ha hb h
  · intro s v hv
    exact castTo_passes (hjoin _ hv)

theorem consistent_iff_common_precise_functions :
    let a : Ty := .fn .int .dyn
    let b : Ty := .fn .dyn (.ref .int)
    let f : Value := .closure ⟨0, "x", .int, .bool, .const (.bool true), []⟩
    a.consistent b = true ∧ (∃ c : Ty, c ≤ a ∧ c ≤ b) ∧
      (a ≤ .dyn ∧ b ≤ .fn .dyn .dyn ∧ Ty.dyn.consistent (.fn .dyn .dyn) = true) ∧
      ((Cells.typeOf #[] f).consistent a = true ∧ (Cells.typeOf #[] f).consistent b = false ∧
        EvalM.castTo (a.join b) f {} = .ok f {}) ∧
      (.fn .int .bool ≠ (.fn .int .string : Ty) ∧ (Ty.fn .int .bool).consistent (.fn .int .string) = false) := by
  intro a b f
  have hab : a.consistent b = true := by decide
  have ha : a ≤ .dyn := by decide
  have hb : b ≤ .fn .dyn .dyn := by decide
  have hf : (Cells.typeOf #[] f).consistent a = true := by decide
  obtain ⟨hiff, -, -, hmono, -, hcast, -⟩ := consistent_iff_common_precise a b
  obtain ⟨-, -, -, -, -, -, heq⟩ := consistent_iff_common_precise (.fn .int .bool) (.fn .int .string)
  have hne : .fn .int .bool ≠ (.fn .int .string : Ty) := by decide
  refine ⟨hab, hiff.mp hab, ⟨ha, hb, hmono _ _ hab ha hb⟩, ⟨hf, by decide, hcast {} f (.inl hf)⟩, hne, ?_⟩
  rw [← Bool.not_eq_true, heq rfl rfl]
  exact hne

end Gradual.Ty

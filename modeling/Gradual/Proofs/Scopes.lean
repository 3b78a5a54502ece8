import Gradual.Scope.Tree

/-!
# Scopes that grow

Scopes only ever gain names, and a scope tree only ever gains scopes. A scope
is grown from another when it binds all that the other binds, and new names
besides, all of them permitted ones (`Scope.GrownBy`).
-/

namespace Gradual

namespace Scope

variable {V : Type}

def names (s : Scope V) : List String :=
  s.bindings.map Prod.fst

@[simp] theorem names_insert (s : Scope V) (x : String) (v : V) : (s.insert x v).names = x :: s.names := rfl

@[simp] theorem bindings_insert (s : Scope V) (x : String) (v : V) :
    (s.insert x v).bindings = (x, v) :: s.bindings := rfl

theorem binds_iff {s : Scope V} {x : String} : s.binds x = true ↔ x ∈ s.names := by
  obtain ⟨bs⟩ := s
  simp only [binds, find?, names]
  induction bs with
  | nil => simp
  | cons b bs ih =>
    obtain ⟨y, v⟩ := b
    by_cases h : x = y
    · subst h; simp
    · have hb : (x == y) = false := by simpa using h
      rw [List.lookup_cons, hb]
      simp [ih, h]

theorem find?_of_not_binds {s : Scope V} {x : String} (h : s.binds x = false) : s.find? x = none := by
  simpa [binds] using h

theorem find?_insert (s : Scope V) (x y : String) (v : V) :
    (s.insert x v).find? y = if y = x then some v else s.find? y := by
  simp only [find?, bindings_insert, List.lookup_cons]
  by_cases h : y = x
  · simp [h]
  · simp [h, beq_false_of_ne h]

theorem find?_append {s s' : Scope V} {new : List (String × V)} (h : s'.bindings = new ++ s.bindings)
    (x : String) : s'.find? x = (new.lookup x).or (s.find? x) := by
  rw [find?, h, List.lookup_append]; rfl

/-! ## Growth -/

def GrownBy (may : String → Prop) (s s' : Scope V) : Prop :=
  ∃ new, s'.bindings = new ++ s.bindings ∧ ∀ b ∈ new, may b.1 ∧ s.binds b.1 = false

variable {may : String → Prop} {s s' s'' : Scope V}

theorem GrownBy.refl (may : String → Prop) (s : Scope V) : s.GrownBy may s :=
  ⟨[], rfl, by simp⟩

theorem GrownBy.insert {x : String} (hx : s.binds x = false) (hm : may x) (v : V) :
    s.GrownBy may (s.insert x v) :=
  ⟨[(x, v)], rfl, by simpa using ⟨hm, hx⟩⟩

theorem GrownBy.mono {may' : String → Prop} (h : s.GrownBy may s') (hm : ∀ x, may x → may' x) :
    s.GrownBy may' s' := by
  obtain ⟨new, hs, hn⟩ := h
  exact ⟨new, hs, fun b hb => ⟨hm _ (hn b hb).1, (hn b hb).2⟩⟩

theorem GrownBy.binds (h : s.GrownBy may s') {x : String} (hx : s.binds x = true) : s'.binds x = true := by
  obtain ⟨new, hs, -⟩ := h
  rw [binds_iff, names, hs, List.map_append]
  exact List.mem_append_right _ (binds_iff.mp hx)

theorem GrownBy.trans (h : s.GrownBy may s') (h' : s'.GrownBy may s'') : s.GrownBy may s'' := by
  have hb : ∀ x, s'.binds x = false → s.binds x = false := by
    intro x hx
    cases hs : s.binds x with
    | false => rfl
    | true => rw [h.binds hs] at hx; exact hx
  obtain ⟨new, hs, hn⟩ := h
  obtain ⟨new', hs', hn'⟩ := h'
  refine ⟨new' ++ new, by rw [hs', hs, List.append_assoc], fun b hm => ?_⟩
  rcases List.mem_append.mp hm with hm | hm
  · exact ⟨(hn' b hm).1, hb _ (hn' b hm).2⟩
  · exact hn b hm

theorem GrownBy.find? (h : s.GrownBy may s') {x : String} {v : V} (hx : s.find? x = some v) :
    s'.find? x = some v := by
  obtain ⟨new, hs, hn⟩ := h
  rw [find?_append hs, hx]
  have : new.lookup x = none := by
    rw [List.lookup_eq_none_iff]
    intro b hb
    have hne : s.binds b.1 = false := (hn b hb).2
    by_cases he : x = b.1
    · rw [← he, Scope.binds, hx] at hne; cases hne
    · simpa using he
  rw [this]; rfl

theorem GrownBy.find?_none (h : s.GrownBy may s') {x : String} (hx : s.find? x = none) (hm : ¬ may x) :
    s'.find? x = none := by
  obtain ⟨new, hs, hn⟩ := h
  rw [find?_append hs, hx]
  have : new.lookup x = none := by
    rw [List.lookup_eq_none_iff]
    intro b hb
    by_cases he : x = b.1
    · exact absurd (he ▸ (hn b hb).1) hm
    · simpa using he
  rw [this]; rfl

theorem GrownBy.find?_eq (h : s.GrownBy may s') {x : String} (hm : ¬ may x) : s'.find? x = s.find? x := by
  cases hx : s.find? x with
  | some v => exact h.find? hx
  | none => exact h.find?_none hx hm

theorem GrownBy.fresh (h : s.GrownBy may s') {added : List String}
    (hnames : s'.names = added.reverse ++ s.names) {x : String} (hx : x ∈ added) : s.binds x = false := by
  obtain ⟨new, hnew, hfresh⟩ := h
  rw [names, hnew, List.map_append] at hnames
  have hx : x ∈ new.map Prod.fst := by
    rw [List.append_cancel_right hnames]
    exact List.mem_reverse.mpr hx
  obtain ⟨b, hb, rfl⟩ := List.mem_map.mp hx
  exact (hfresh b hb).2

end Scope

/-! ## Scope trees -/

namespace ScopeTree

variable {V : Type}

/-- The innermost scope of the chain is there. -/
def Has (t : ScopeTree V) (c : Chain) : Prop :=
  ∀ i ∈ c.head?, i < t.inner.size

theorem has_nil (t : ScopeTree V) : t.Has [] := by
  simp [Has]

theorem has_cons {t : ScopeTree V} {i : Nat} {c : Chain} : t.Has (i :: c) ↔ i < t.inner.size := by
  simp [Has]

theorem scope_congr (t : ScopeTree V) {c c' : Chain} (h : c.head? = c'.head?) : t.scope c = t.scope c' := by
  cases c with
  | nil => cases c' with
    | nil => rfl
    | cons j c' => simp at h
  | cons i c => cases c' with
    | nil => simp at h
    | cons j c' =>
      have : i = j := by simpa using h
      subst this; rfl

@[simp] theorem size_modify (t : ScopeTree V) (f : Scope V → Scope V) (c : Chain) :
    (t.modify f c).inner.size = t.inner.size := by
  cases c <;> simp [modify]

@[simp] theorem size_grow (t : ScopeTree V) (c : Chain) (s : Scope V) :
    (t.grow c s).2.inner.size = t.inner.size + 1 := by
  simp [grow]

theorem scope_modify {t : ScopeTree V} {c : Chain} (hc : t.Has c) (f : Scope V → Scope V) :
    (t.modify f c).scope c = f (t.scope c) := by
  cases c with
  | nil => rfl
  | cons i c =>
    have hi := has_cons.mp hc
    simp only [modify, scope, Array.getD_eq_getD_getElem?, Array.getElem?_modify, ite_true]
    simp [hi]

theorem scope_modify_of_ne {t : ScopeTree V} {c c' : Chain} (h : c'.head? ≠ c.head?)
    (f : Scope V → Scope V) : (t.modify f c).scope c' = t.scope c' := by
  cases c with
  | nil => cases c' with
    | nil => exact absurd rfl h
    | cons j c' => rfl
  | cons i c => cases c' with
    | nil => rfl
    | cons j c' =>
      have hij : i ≠ j := fun e => h (by simp [e])
      simp only [modify, scope, Array.getD_eq_getD_getElem?, Array.getElem?_modify, hij, ite_false]

theorem scope_grow_new (t : ScopeTree V) (c : Chain) (s : Scope V) {c' : Chain}
    (h : c'.head? = some t.inner.size) : (t.grow c s).2.scope c' = s := by
  rw [scope_congr _ (show c'.head? = List.head? [t.inner.size] from h)]
  simp [grow, scope, Array.getD]

theorem scope_grow_old (t : ScopeTree V) (c : Chain) (s : Scope V) {c' : Chain}
    (h : c'.head? ≠ some t.inner.size) : (t.grow c s).2.scope c' = t.scope c' := by
  cases c' with
  | nil => rfl
  | cons j c' =>
    have hj : j ≠ t.inner.size := fun e => h (by rw [e]; rfl)
    simp only [grow, scope, Array.getD_eq_getD_getElem?, Array.getElem?_push, hj, ite_false]

theorem Has.head_ne {t : ScopeTree V} {c : Chain} (h : t.Has c) : c.head? ≠ some t.inner.size :=
  fun e => Nat.lt_irrefl _ (h _ e)

end ScopeTree

end Gradual

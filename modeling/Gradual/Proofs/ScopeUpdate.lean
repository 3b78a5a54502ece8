import Gradual.Proofs.Scopes

/-!
# Updating a name

Scopes are shared: an update made through one scope is seen from others too.
It goes to one scope, the innermost on the way out that binds the name
(`ScopeTree.Home`), and whoever gets to that scope before another binding of the
name sees the new value (`ScopeTree.Exposes`). For everyone else, and for all
other names, nothing changes.
-/

namespace Gradual

theorem Scope.find?_put {V : Type} (s : Scope V) (x y : String) (v : V) :
    (s.put x v).find? y = if y = x then some v else s.find? y := by
  obtain ⟨bs⟩ := s
  by_cases hy : y = x
  · simp [put, find?, hy]
  · simp only [put, find?, List.lookup_cons, beq_false_of_ne hy, hy, ite_false]
    induction bs with
    | nil => rfl
    | cons b bs ih =>
      obtain ⟨z, w⟩ := b
      by_cases hz : z = x
      · have hyz : y ≠ z := fun h => hy (h.trans hz)
        simp [hz, ih, List.lookup_cons, beq_false_of_ne hy]
      · simp [hz, ih, List.lookup_cons]

namespace ScopeTree

variable {V : Type}

/-! ## Linked scopes -/

/-- The chain leads from a scope of `t` out to the global one, from each scope to
the one around it. -/
inductive Linked (t : ScopeTree V) (around : Nat → Option Nat) : Chain → Prop where
  | global : Linked t around []
  | inner {i c} : i < t.inner.size → around i = c.head? → Linked t around c → Linked t around (i :: c)

/-- Going out from the scope `k` one meets `n` scopes, the global one included. -/
inductive DepthIs (t : ScopeTree V) (around : Nat → Option Nat) : Option Nat → Nat → Prop where
  | global : DepthIs t around none 1
  | inner {i n} : i < t.inner.size → DepthIs t around (around i) n → DepthIs t around (some i) (1 + n)

section
variable {t : ScopeTree V} {around : Nat → Option Nat} {c c' : Chain}

theorem Linked.has (h : t.Linked around c) : t.Has c := by
  cases h with
  | global => exact t.has_nil
  | inner hi _ _ => exact has_cons.mpr hi

theorem Linked.of_suffix (h : t.Linked around c) (hc : c' <:+ c) : t.Linked around c' := by
  induction h with
  | global => rw [List.suffix_nil.mp hc]; exact .global
  | inner hi hnext htail ih =>
    obtain rfl | hc := List.suffix_cons_iff.mp hc
    · exact .inner hi hnext htail
    · exact ih hc

theorem Linked.eq_of_head (h : t.Linked around c) (h' : t.Linked around c') (hhead : c.head? = c'.head?) :
    c = c' := by
  induction h generalizing c' with
  | global =>
    cases h' with
    | global => rfl
    | inner _ _ _ => simp at hhead
  | inner _ hnext _ ih =>
    cases h' with
    | global => simp at hhead
    | inner _ hnext' htail' =>
      obtain rfl : _ = _ := by simpa using hhead
      rw [ih htail' (hnext.symm.trans hnext')]

theorem Linked.head_ne (h : t.Linked around c) (h' : t.Linked around c') (hne : c ≠ c') : c.head? ≠ c'.head? :=
  fun hhead => hne (h.eq_of_head h' hhead)

theorem DepthIs.unique {k : Option Nat} {n n' : Nat} (h : t.DepthIs around k n) (h' : t.DepthIs around k n') :
    n' = n := by
  induction h generalizing n' with
  | global => cases h'; rfl
  | inner _ _ ih =>
    cases h' with
    | inner _ h' => rw [ih h']

theorem DepthIs.mono {t' : ScopeTree V} {k : Option Nat} {n : Nat} (h : t.DepthIs around k n)
    (hsize : t.inner.size ≤ t'.inner.size) : t'.DepthIs around k n := by
  induction h with
  | global => exact .global
  | inner hi _ ih => exact .inner (Nat.lt_of_lt_of_le hi hsize) ih

theorem Linked.depthIs (h : t.Linked around c) : t.DepthIs around c.head? c.depth := by
  induction h with
  | global => exact .global
  | inner hi hnext _ ih => exact .inner hi (hnext ▸ ih)

end

/-! ## Where a name is found -/

/-- Going out along `c` one comes to the scope `H` before any other that binds `x`. -/
def Exposes (t : ScopeTree V) (x : String) (c H : Chain) : Prop :=
  H <:+ c ∧ ∀ inside, inside <:+ c → H <:+ inside → inside ≠ H → (t.scope inside).binds x = false

/-- `H` is the innermost scope on the chain that binds `x`, or the global one if
none does. -/
structure Home (t : ScopeTree V) (x : String) (c H : Chain) : Prop where
  exposed : t.Exposes x c H
  binds : (t.scope H).binds x = true ∨ H = []

section
variable {t t' : ScopeTree V} {x : String} {c H : Chain} {v : V}

theorem Exposes.refl (t : ScopeTree V) (x : String) (c : Chain) : t.Exposes x c c := by
  refine ⟨List.suffix_rfl, fun inside hin hout hne => ?_⟩
  exact absurd (hin.eq_of_length_le hout.length_le) hne

theorem exposes_cons {i : Nat} :
    t.Exposes x (i :: c) H ↔ H = i :: c ∨ (t.scope (i :: c)).binds x = false ∧ t.Exposes x c H := by
  constructor
  · rintro ⟨hsuffix, hfree⟩
    by_cases heq : H = i :: c
    · exact .inl heq
    · have hc : H <:+ c := (List.suffix_cons_iff.mp hsuffix).resolve_left heq
      have htop := hfree (i :: c) List.suffix_rfl hsuffix (Ne.symm heq)
      exact .inr ⟨htop, hc, fun inside hin => hfree inside (hin.trans (List.suffix_cons i c))⟩
  · rintro (rfl | ⟨htop, hc, hfree⟩)
    · exact .refl t x _
    · refine ⟨hc.trans (List.suffix_cons i c), fun inside hin hout hne => ?_⟩
      obtain rfl | hin := List.suffix_cons_iff.mp hin
      · exact htop
      · exact hfree inside hin hout hne

theorem Home.eq_of_suffix {H' : Chain} (h : t.Home x c H) (h' : t.Home x c H') (hout : H <:+ H') : H' = H := by
  by_cases heq : H' = H
  · exact heq
  · -- `H'` is inside `H` and so does not bind `x`; then it is the global scope.
    have hfree := h.exposed.2 H' h'.exposed.1 hout heq
    have hnil : H' = [] := h'.binds.resolve_left (by simp [hfree])
    rw [hnil] at hout ⊢
    exact (List.suffix_nil.mp hout).symm

theorem Home.unique {H' : Chain} (h : t.Home x c H) (h' : t.Home x c H') : H' = H := by
  obtain hout | hout := List.suffix_or_suffix_of_suffix h.exposed.1 h'.exposed.1
  · exact h.eq_of_suffix h' hout
  · exact (h'.eq_of_suffix h hout).symm

theorem find?_of_exposes (h : t.Exposes x c H) : t.find? c x = t.find? H x := by
  induction c with
  | nil => rw [List.suffix_nil.mp h.1]
  | cons i c ih =>
    obtain rfl | ⟨htop, hc⟩ := exposes_cons.mp h
    · rfl
    · simp only [find?, Scope.find?_of_not_binds htop]
      exact ih hc

theorem find?_of_scope (h : (t.scope H).find? x = some v) : t.find? H x = some v := by
  cases H with
  | nil => exact h
  | cons i c => simp only [find?, h]

theorem find?_congr (h : ∀ c', c' <:+ c → (t'.scope c').find? x = (t.scope c').find? x) :
    t'.find? c x = t.find? c x := by
  induction c with
  | nil => exact h [] List.suffix_rfl
  | cons i c ih =>
    have htop := h (i :: c) List.suffix_rfl
    have hc := ih fun c' hc' => h c' (hc'.trans (List.suffix_cons i c))
    simp only [find?, htop, hc]

theorem resolve_of_find? (h : t.find? c x = some v) : t.resolve c x = .ok v := by
  simp only [resolve, h]

theorem resolve_congr (h : t'.find? c x = t.find? c x) : t'.resolve c x = t.resolve c x := by
  simp only [resolve, h]

theorem binds_eq_isSome_find? : t.binds c x = (t.find? c x).isSome := by
  induction c with
  | nil => rfl
  | cons i c ih =>
    simp only [binds, find?, ih, Scope.binds]
    cases (t.scope (i :: c)).find? x <;> rfl

theorem binds_iff_resolve : t.binds c x = true ↔ ∃ v, t.resolve c x = .ok v := by
  rw [binds_eq_isSome_find?, resolve]
  cases t.find? c x with
  | none => simp
  | some v => simp

end

/-! ## The update -/

theorem exists_home (t : ScopeTree V) (x : String) (v : V) (c : Chain) :
    ∃ H, t.Home x c H ∧ t.update c x v = t.modify (·.put x v) H := by
  induction c with
  | nil => exact ⟨[], ⟨.refl t x [], .inr rfl⟩, rfl⟩
  | cons i c ih =>
    unfold update
    cases htop : (t.scope (i :: c)).binds x with
    | true => exact ⟨i :: c, ⟨.refl t x _, .inl htop⟩, rfl⟩
    | false =>
      obtain ⟨H, hH, hupdate⟩ := ih
      refine ⟨H, ⟨exposes_cons.mpr (.inr ⟨htop, hH.exposed⟩), hH.binds⟩, ?_⟩
      simpa using hupdate

structure Puts (around : Nat → Option Nat) (x : String) (v : V) (H : Chain) (t t' : ScopeTree V) : Prop where
  home : ∀ y, (t'.scope H).find? y = if y = x then some v else (t.scope H).find? y
  others : ∀ c, t.Linked around c → c ≠ H → t'.scope c = t.scope c

section
variable {around : Nat → Option Nat} {x y : String} {v : V} {c H : Chain} {t t' : ScopeTree V}

theorem puts_modify (hH : t.Linked around H) (x : String) (v : V) :
    Puts around x v H t (t.modify (·.put x v) H) := by
  refine ⟨fun y => ?_, fun c hc hne => ?_⟩
  · rw [scope_modify hH.has, Scope.find?_put]
  · exact scope_modify_of_ne (hc.head_ne hH hne) _

theorem Puts.find?_other (hp : Puts around x v H t t') (hc : t.Linked around c) (hy : y ≠ x) :
    t'.find? c y = t.find? c y := by
  refine find?_congr fun c' hc' => ?_
  by_cases heq : c' = H
  · rw [heq, hp.home, if_neg hy]
  · rw [hp.others c' (hc.of_suffix hc') heq]

theorem Puts.find?_exposed (hp : Puts around x v H t t') (hc : t.Linked around c) (h : t.Exposes x c H) :
    t'.find? c x = some v := by
  -- The scopes inside `H` are as they were, so `H` is exposed after the update too.
  have h' : t'.Exposes x c H := by
    refine ⟨h.1, fun inside hin hout hne => ?_⟩
    rw [hp.others inside (hc.of_suffix hin) hne]
    exact h.2 inside hin hout hne
  rw [find?_of_exposes h']
  exact find?_of_scope (by rw [hp.home, if_pos rfl])

theorem Puts.find?_hidden (hp : Puts around x v H t t') (hc : t.Linked around c) (h : ¬ t.Exposes x c H) :
    t'.find? c x = t.find? c x := by
  induction hc with
  | global =>
    have hne : ([] : Chain) ≠ H := by
      rintro rfl
      exact h (.refl t x [])
    exact congrArg (·.find? x) (hp.others [] .global hne)
  | @inner i c hi hnext htail ih =>
    obtain ⟨hne, hinner⟩ := not_or.mp (mt exposes_cons.mpr h)
    have hsame := hp.others (i :: c) (.inner hi hnext htail) (Ne.symm hne)
    simp only [find?, hsame]
    -- A binding of `x` right here hides `H`; without one, `H` is hidden further out.
    cases htop : (t.scope (i :: c)).find? x with
    | some w => rfl
    | none =>
      have hfree : (t.scope (i :: c)).binds x = false := by simp [Scope.binds, htop]
      exact ih fun hexp => hinner ⟨hfree, hexp⟩

end

/-- Updating `x` through the scope `S` changes one binding, that of `x` in the
innermost scope on the way out that binds it, or in the global scope. The new
value is seen from `S`, and from just those scopes that come to this binding
before any other of `x`. All other names are as they were, and so is the number
of scopes that one meets on the way out. -/
theorem update_one_binding {around : Nat → Option Nat} {t : ScopeTree V} {S : Chain} (hS : t.Linked around S)
    (x : String) (v : V) :
    let t' := t.update S x v
    (∃ H, t.Home x S H ∧ (∀ H', t.Home x S H' → H' = H) ∧
      (∀ y, (t'.scope H).find? y = if y = x then some v else (t.scope H).find? y) ∧
      (∀ R, t.Linked around R → R ≠ H → t'.scope R = t.scope R) ∧
      ∀ R, t.Linked around R →
        (∀ y, y ≠ x → t'.resolve R y = t.resolve R y) ∧
        (t.Exposes x R H → t'.resolve R x = .ok v) ∧
        (¬ t.Exposes x R H → t'.resolve R x = t.resolve R x)) ∧
    t'.resolve S x = .ok v ∧
    (∀ k n, t'.DepthIs around k n ↔ t.DepthIs around k n) ∧
    (∀ R, t.Linked around R → ∀ n, t'.DepthIs around R.head? n ↔ n = R.depth) ∧
    ∀ R n, (t.binds R n = true ↔ ∃ w, t.resolve R n = .ok w) ∧
      (t'.binds R n = true ↔ ∃ w, t'.resolve R n = .ok w) := by
  intro t'
  obtain ⟨H, hH, hupdate⟩ := t.exists_home x v S
  have hp : Puts around x v H t t' := by
    have hlinked : t.Linked around H := hS.of_suffix hH.exposed.1
    simpa only [t', hupdate] using puts_modify hlinked x v
  have hsize : t'.inner.size = t.inner.size := by simp only [t', hupdate, size_modify]
  have hdepth : ∀ k n, t'.DepthIs around k n ↔ t.DepthIs around k n := fun k n =>
    ⟨fun h => h.mono (Nat.le_of_eq hsize), fun h => h.mono (Nat.le_of_eq hsize.symm)⟩
  refine ⟨⟨H, hH, fun _ => hH.unique, hp.home, hp.others,
    fun R hR => ⟨fun y hy => ?_, fun h => ?_, fun h => ?_⟩⟩, ?_, hdepth, fun R hR n => ⟨fun h => ?_, ?_⟩,
    fun R n => ⟨binds_iff_resolve, binds_iff_resolve⟩⟩
  · exact resolve_congr (hp.find?_other hR hy)
  · exact resolve_of_find? (hp.find?_exposed hR h)
  · exact resolve_congr (hp.find?_hidden hR h)
  · exact resolve_of_find? (hp.find?_exposed hS hH.exposed)
  · exact hR.depthIs.unique ((hdepth _ n).mp h)
  · rintro rfl
    exact (hdepth _ _).mpr hR.depthIs

/-- Scope 1 is in scope 0, scope 3 in scope 1, and scope 2 beside them. All but 1
and 2 bind `x`. -/
def nested : ScopeTree Nat :=
  { global := ⟨[("x", 0)]⟩, inner := #[⟨[("x", 1), ("y", 7)]⟩, {}, {}, ⟨[("x", 3)]⟩] }

def nestedLinks : Nat → Option Nat
  | 1 => some 0
  | 3 => some 1
  | _ => none

theorem update_one_binding_nested :
    let t' := nested.update [1, 0] "x" 9
    nested.Linked nestedLinks [1, 0] ∧ nested.Home "x" [1, 0] [0] ∧
      t'.resolve [1, 0] "x" = .ok 9 ∧ t'.resolve [0] "x" = .ok 9 ∧ t'.resolve [0] "y" = nested.resolve [0] "y" ∧
      t'.resolve [2] "x" = nested.resolve [2] "x" ∧ t'.resolve [3, 1, 0] "x" = nested.resolve [3, 1, 0] "x" ∧
      (∀ n, t'.DepthIs nestedLinks (some 3) n ↔ n = 4) ∧ t'.binds [1, 0] "y" = true := by
  intro t'
  have h0 : nested.Linked nestedLinks [0] := .inner (by decide) rfl .global
  have h1 : nested.Linked nestedLinks [1, 0] := .inner (by decide) rfl h0
  have h2 : nested.Linked nestedLinks [2] := .inner (by decide) rfl .global
  have h3 : nested.Linked nestedLinks [3, 1, 0] := .inner (by decide) rfl h1
  have hhome : nested.Home "x" [1, 0] [0] := ⟨exposes_cons.mpr (.inr ⟨rfl, .refl _ _ _⟩), .inl rfl⟩
  obtain ⟨⟨H, -, hunique, -, -, hseen⟩, hS, -, hdepth, hbinds⟩ := update_one_binding h1 "x" 9
  obtain rfl : [0] = H := hunique [0] hhome
  have hbeside : ¬ nested.Exposes "x" [2] [0] := fun h => absurd h.1 (by decide)
  have hinside : ¬ nested.Exposes "x" [3, 1, 0] [0] := fun h =>
    absurd (h.2 [3, 1, 0] List.suffix_rfl (by decide) (by decide)) (by decide)
  exact ⟨h1, hhome, hS, (hseen [0] h0).2.1 (.refl _ _ _), (hseen [0] h0).1 "y" (by decide),
    (hseen [2] h2).2.2 hbeside, (hseen [3, 1, 0] h3).2.2 hinside, hdepth [3, 1, 0] h3,
    (hbinds [1, 0] "y").2.mpr ⟨7, rfl⟩⟩

end ScopeTree

end Gradual

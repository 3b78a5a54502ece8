import Gradual.Proofs.Soundness
import Mathlib.Data.Finset.Card

/-!
# Cells that lead back to themselves

The text of a reference follows the cells that it leads to, and has no end if
it comes back to one of them. The type of a cell says how far its contents
lead: if it is not `?`, it has one reference less than the type of a reference
to the cell. So a way that comes back has a cell of type `?` on it, and a value
that leads to no such cell has a text, which follows no more cells than its
type has references.
-/

namespace Gradual

/-- The references that a type begins with. -/
def Ty.refs : Ty → Nat
  | .ref cell => cell.refs + 1
  | _ => 0

namespace Cells

/-- The value that one comes to from a value through `n` cells, or through
fewer if there are no more. -/
def follow (cells : Cells) : Nat → Value → Value
  | n + 1, .ref i => follow cells n (cells.contents i)
  | _, v => v

/-- No cell that one comes to from the value is tagged `?`. -/
def Definite (cells : Cells) (v : Value) : Prop :=
  ∀ n j cell, cells.follow n v = .ref j → cells[j]? = some cell → cell.ty ≠ .dyn

def Holds (cells : Cells) (v : Value) : Prop :=
  ∀ i, v = .ref i → i < cells.size

/-- What a cell that is not tagged `?` holds has just the type of the cell, and
every reference leads to a cell. -/
structure Tagged (cells : Cells) : Prop where
  types : ∀ cell ∈ cells, cell.ty ≠ .dyn → cells.typeOf cell.contents = cell.ty
  refs : ∀ cell ∈ cells, cells.Holds cell.contents

variable {cells : Cells} {v : Value} {i : Nat}

/-! ## Ways through cells -/

theorem follow_ref (cells : Cells) (n i : Nat) :
    cells.follow (n + 1) (.ref i) = cells.follow n (cells.contents i) :=
  rfl

theorem follow_eq_self (n : Nat) (hv : ∀ i, v ≠ .ref i) : cells.follow n v = v := by
  unfold follow
  cases v with
  | ref i => exact absurd rfl (hv i)
  | _ => cases n <;> rfl

theorem follow_add (m n : Nat) (v : Value) : cells.follow (m + n) v = cells.follow n (cells.follow m v) := by
  induction m generalizing v with
  | zero => simp [follow]
  | succ m ih =>
    by_cases hv : ∃ i, v = .ref i
    · obtain ⟨i, rfl⟩ := hv
      rw [Nat.succ_add, follow_ref, follow_ref]
      exact ih _
    · have hne : ∀ i, v ≠ .ref i := fun i hi => hv ⟨i, hi⟩
      simp only [follow_eq_self _ hne]

theorem cell_of_lt (hi : i < cells.size) :
    ∃ cell ∈ cells, cells[i]? = some cell ∧ cells.cellTy i = cell.ty ∧ cells.contents i = cell.contents := by
  have hget : cells[i]? = some cells[i] := Array.getElem?_eq_getElem hi
  exact ⟨cells[i], Array.getElem_mem hi, hget, by rw [cellTy, hget], by rw [contents, hget]⟩

theorem contents_of_ge (hi : cells.size ≤ i) : cells.contents i = .unit := by
  rw [contents, Array.getElem?_eq_none hi]

theorem cell_on_way {l n j k : Nat} (hl : l < n) (hj : cells.follow l v = .ref j)
    (hn : cells.follow n v = .ref k) :
    j < cells.size := by
  by_contra hge
  have hnext : n = l + (n - l - 1 + 1) := by omega
  rw [hnext, follow_add, hj, follow_ref, contents_of_ge (Nat.le_of_not_lt hge),
    follow_eq_self _ (fun i hi => by cases hi)] at hn
  cases hn

theorem Definite.contents (h : cells.Definite (.ref i)) : cells.Definite (cells.contents i) :=
  fun n => h (n + 1)

theorem Definite.cellTy (h : cells.Definite (.ref i)) (hi : i < cells.size) : cells.cellTy i ≠ .dyn := by
  obtain ⟨cell, -, hget, hty, -⟩ := cell_of_lt hi
  rw [hty]
  exact h 0 i cell rfl hget

namespace Tagged

theorem typeOf_contents (h : cells.Tagged) (hi : i < cells.size) (hty : cells.cellTy i ≠ .dyn) :
    cells.typeOf (cells.contents i) = cells.cellTy i := by
  obtain ⟨cell, hcell, -, hcty, hcontents⟩ := cell_of_lt hi
  rw [hcty] at hty ⊢
  rw [hcontents]
  exact h.types cell hcell hty

theorem holds_contents (h : cells.Tagged) (i : Nat) : cells.Holds (cells.contents i) := by
  by_cases hi : i < cells.size
  · obtain ⟨cell, hcell, -, -, hcontents⟩ := cell_of_lt hi
    rw [hcontents]
    exact h.refs cell hcell
  · rw [contents_of_ge (Nat.le_of_not_lt hi)]
    intro j hj
    cases hj

/-- Each cell on the way takes one reference off the type. -/
theorem refs_follow (h : cells.Tagged) {n k : Nat} (hk : cells.follow n v = .ref k)
    (hty : ∀ l < n, ∀ j, cells.follow l v = .ref j → j < cells.size ∧ cells.cellTy j ≠ .dyn) :
    (cells.typeOf v).refs = (cells.typeOf (.ref k)).refs + n := by
  induction n generalizing v with
  | zero =>
    have hv : v = .ref k := by simpa [follow] using hk
    rw [hv]
    rfl
  | succ n ih =>
    cases v with
    | ref i =>
      obtain ⟨hi, hne⟩ := hty 0 (Nat.succ_pos n) i rfl
      have hrest := ih hk fun l hl => hty (l + 1) (Nat.succ_lt_succ hl)
      rw [h.typeOf_contents hi hne] at hrest
      simp only [typeOf, Ty.refs] at hrest ⊢
      omega
    | _ => cases hk

/-- A way that comes back to a cell has a cell tagged `?` on it. -/
theorem exists_dyn_of_cycle (h : cells.Tagged) {m n k : Nat} (hmn : m < n) (hm : cells.follow m v = .ref k)
    (hn : cells.follow n v = .ref k) :
    ∃ l j cell, m ≤ l ∧ l < n ∧ cells.follow l v = .ref j ∧ cells[j]? = some cell ∧ cell.ty = .dyn := by
  by_contra hno
  -- Once around from `k`, the type of a reference to `k` would have lost `n - m` references.
  have haround : cells.follow (n - m) (.ref k) = .ref k := by
    rw [← hm, ← follow_add, Nat.add_sub_cancel' (Nat.le_of_lt hmn), hm]
    exact hn
  have hrefs := h.refs_follow haround fun l hl j hj => ?_
  · omega
  · have hlt := cell_on_way hl hj haround
    refine ⟨hlt, fun hdyn => hno ?_⟩
    obtain ⟨cell, -, hget, hty, -⟩ := cell_of_lt hlt
    refine ⟨m + l, j, cell, by omega, by omega, ?_, hget, hty ▸ hdyn⟩
    rw [follow_add, hm]
    exact hj

/-! ## Texts -/

theorem textWithin_refs (h : cells.Tagged) (hv : cells.Definite v) :
    ∃ t, cells.textWithin (cells.typeOf v).refs v = some t := by
  induction hn : (cells.typeOf v).refs generalizing v with
  | zero =>
    cases v with
    | ref i => simp [typeOf, Ty.refs] at hn
    | _ => exact ⟨_, rfl⟩
  | succ n ih =>
    cases v with
    | ref i =>
      by_cases hi : i < cells.size
      · have hrefs : (cells.typeOf (cells.contents i)).refs = n := by
          rw [h.typeOf_contents hi (hv.cellTy hi)]
          simpa [typeOf, Ty.refs] using hn
        obtain ⟨t, ht⟩ := ih hv.contents hrefs
        exact ⟨"ref " ++ t, by rw [textWithin, ht]; rfl⟩
      · rw [textWithin, contents_of_ge (Nat.le_of_not_lt hi)]
        cases n <;> exact ⟨_, rfl⟩
    | _ => exact ⟨_, rfl⟩

theorem exists_refs (h : cells.Tagged) (hv : cells.Definite v) (hholds : cells.Holds v) {r : Nat}
    (hr : r < (cells.typeOf v).refs) : ∃ j < cells.size, (cells.cellTy j).refs = r := by
  induction hn : (cells.typeOf v).refs generalizing v with
  | zero => omega
  | succ n ih =>
    cases v with
    | ref i =>
      have hi := hholds i rfl
      have hcell : (cells.cellTy i).refs = n := by simpa [typeOf, Ty.refs] using hn
      by_cases heq : r = n
      · exact ⟨i, hi, hcell.trans heq.symm⟩
      · have hcontents := h.typeOf_contents hi (hv.cellTy hi)
        refine ih hv.contents (h.holds_contents i) ?_ (by rw [hcontents]; exact hcell)
        rw [hcontents]
        omega
    | _ => simp [typeOf, Ty.refs] at hn

theorem refs_le_size (h : cells.Tagged) (hv : cells.Definite v) (hholds : cells.Holds v) :
    (cells.typeOf v).refs ≤ cells.size := by
  -- On the way from `v` each smaller number of references is that of some cell's type.
  have hsub : Finset.range (cells.typeOf v).refs ⊆
      (Finset.range cells.size).image fun j => (cells.cellTy j).refs := by
    intro r hr
    obtain ⟨j, hj, hjr⟩ := h.exists_refs hv hholds (Finset.mem_range.mp hr)
    exact Finset.mem_image.mpr ⟨j, Finset.mem_range.mpr hj, hjr⟩
  calc (cells.typeOf v).refs = (Finset.range (cells.typeOf v).refs).card := (Finset.card_range _).symm
    _ ≤ ((Finset.range cells.size).image fun j => (cells.cellTy j).refs).card := Finset.card_le_card hsub
    _ ≤ (Finset.range cells.size).card := Finset.card_image_le
    _ = cells.size := Finset.card_range _

end Tagged

theorem textWithin_mono {n n' : Nat} (hle : n ≤ n') {t : String} (h : cells.textWithin n v = some t) :
    cells.textWithin n' v = some t := by
  induction n generalizing n' v t with
  | zero =>
    cases v with
    | ref i => cases h
    | _ => cases n' <;> exact h
  | succ n ih =>
    obtain ⟨k, rfl⟩ : ∃ k, n' = k + 1 := ⟨n' - 1, by omega⟩
    cases v with
    | ref i =>
      simp only [textWithin, Option.map_eq_map, Option.map_eq_some_iff] at h ⊢
      obtain ⟨t', ht', rfl⟩ := h
      exact ⟨t', ih (Nat.le_of_succ_le_succ hle) ht', rfl⟩
    | _ => exact h

end Cells

/-! ## Checked programs -/

theorem State.Fine.tagged {casts : Ty → Prop} {W : World} {s : State} (h : s.Fine (.core casts) W) :
    s.cells.Tagged := by
  have hsize : s.cells.size = W.cells.size := by rw [← h.cellTys, Array.size_map]
  refine ⟨fun cell hcell hne => ?_, fun cell hcell i hi => ?_⟩
  · rw [h.typeOf]
    exact (h.cells cell hcell).fits.resolve_left hne
  · have hfine := (h.cells cell hcell).fine
    rw [hi] at hfine
    exact hsize ▸ hfine

/-- When a program without casts to function types has ended, by a value or an
error, whoever follows references and comes to a cell a second time has come
through a cell of type `?`. A value that leads to no such cell has a text, which
follows no more cells than the type of the value has references. -/
theorem run_cycles_through_dyn {e e' : Expr} {ty : Ty} {σ : CheckState} (hd : e.DistinctLets)
    (hcheck : e.checkProgram { context := {} } = .ok (ty, e') σ) (hfn : ∀ t ∈ e'.castTargets, t.isFn = false)
    (config : Config) (sink : Sink) :
    let cells := ((Interpreter.fresh config sink).run e').2.state.cells
    (∀ v m n k, m < n → cells.follow m v = .ref k → cells.follow n v = .ref k →
      ∃ l j cell, m ≤ l ∧ l < n ∧ cells.follow l v = .ref j ∧ cells[j]? = some cell ∧ cell.ty = .dyn) ∧
    ∀ v, cells.Definite v →
      ∃ t, cells.textWithin (cells.typeOf v).refs v = some t ∧ (cells.Holds v → cells.text? v = some t) := by
  intro cells
  have hm := Machine.Fine.start (D := .core (· ∈ e'.castTargets)) hcheck (fun _ => hd.lexical)
    (fun _ ht => ht) sink
  obtain ⟨W, -, hst, -, -⟩ := Interpreter.fresh_run_ends hm config fun m _ => Discipline.core_honest hfn m
  have htagged : cells.Tagged := hst.tagged
  refine ⟨fun v m n k hmn hvm hvn => htagged.exists_dyn_of_cycle hmn hvm hvn, fun v hv => ?_⟩
  obtain ⟨t, ht⟩ := htagged.textWithin_refs hv
  refine ⟨t, ht, fun hholds => ?_⟩
  exact Cells.textWithin_mono (htagged.refs_le_size hv hholds) ht

def knot : Expr :=
  .seq [
    .decl "r" none (.alloc (.cast .dyn (.const (.int 1))) none),
    .assign (.var "r") (.var "r"),
    .alloc (.alloc (.const (.int 5)) none) none]

def knotChecked : Expr :=
  .seq [
    .decl "r" none (.alloc (.cast .dyn (.const (.int 1))) (some .dyn)),
    .assign (.var "r") (.cast .dyn (.var "r")),
    .alloc (.alloc (.const (.int 5)) (some .int)) (some (.ref .int))]

def knotCells : Cells :=
  #[⟨.dyn, .ref 0⟩, ⟨.int, .int 5⟩, ⟨.ref .int, .ref 1⟩]

theorem knotCells_definite : knotCells.Definite (.ref 2) := by
  intro n j cell hj hcell
  -- The way goes from the third cell to the second and ends there.
  match n with
  | 0 =>
    cases hj
    cases hcell
    decide
  | 1 =>
    cases hj
    cases hcell
    decide
  | n + 2 => cases n <;> cases hj

theorem run_cycles_through_dyn_knot :
    knot.DistinctLets ∧
      (∃ σ, knot.checkProgram { context := {} } = .ok (.ref (.ref .int), knotChecked) σ) ∧
      (∀ t ∈ knotChecked.castTargets, t.isFn = false) ∧
      ((Interpreter.fresh {} {}).run knotChecked).2.state.cells = knotCells ∧
      knotCells.follow 1 (.ref 0) = .ref 0 ∧
      (∃ l j cell, 0 ≤ l ∧ l < 1 ∧ knotCells.follow l (.ref 0) = .ref j ∧
        knotCells[j]? = some cell ∧ cell.ty = .dyn) ∧
      knotCells.Definite (.ref 2) ∧ (knotCells.typeOf (.ref 2)).refs = 2 ∧
      ∃ t, knotCells.textWithin 2 (.ref 2) = some t ∧ knotCells.text? (.ref 2) = some t := by
  have hcells : ((Interpreter.fresh {} {}).run knotChecked).2.state.cells = knotCells := by
    rw [Interpreter.run, Interpreter.evaluate_eq]
    rfl
  have hcheck : ∃ σ, knot.checkProgram { context := {} } = .ok (.ref (.ref .int), knotChecked) σ := ⟨_, rfl⟩
  obtain ⟨σ, hσ⟩ := hcheck
  obtain ⟨hcycle, htext⟩ := run_cycles_through_dyn (by decide) hσ (by decide) {} {}
  rw [hcells] at hcycle htext
  refine ⟨by decide, ⟨σ, hσ⟩, by decide, hcells, rfl, hcycle (.ref 0) 0 1 0 (by decide) rfl rfl,
    knotCells_definite, rfl, ?_⟩
  obtain ⟨t, ht, hholds⟩ := htext (.ref 2) knotCells_definite
  refine ⟨t, ht, hholds fun i hi => ?_⟩
  cases hi
  decide

end Gradual

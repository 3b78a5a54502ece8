import Mathlib.Data.List.Forall2
import Gradual.Eval.State
import Gradual.Proofs.Typed

/-!
# Worlds

A world is what the static types say of a running program: the type of every
binding, what every scope declares, and the type of every cell. A state is
fine in a world when it holds such values. Worlds grow as the program runs,
and what a value was found to be stays true of it (`HasTy.mono`).
-/

namespace Gradual

structure World where
  scopes : ScopeTree Ty := {}
  /-- What a scope declares sooner or later, the global one at `none`. -/
  lets : Option Nat → List String
  cells : Array Ty := #[]

/-- A scope that declares `lets` may come to bind the name. -/
def Discipline.May (D : Discipline) (lets : List String) (x : String) : Prop :=
  D.Blind ∨ x ∈ lets

namespace World

def tyOf (W : World) : Value → Ty
  | .bool _ => .bool
  | .int _ => .int
  | .str _ => .string
  | .unit => .unit
  | .closure c => .fn c.paramTy c.resultTy
  | .ref i => .ref (W.cells.getD i .dyn)

/-! ## Places at runtime -/

/-- The innermost scope of `c` is the layer `l`, grown meanwhile unless `l` is live. -/
structure Shows (D : Discipline) (W : World) (c : Chain) (l : Layer) : Prop where
  lets : D.Blind ∨ W.lets c.head? = l.lets
  grown : l.scope.GrownBy (D.May l.lets) (W.scopes.scope c)
  live : l.live = true → W.scopes.scope c = l.scope

/-- The scopes of a chain are the layers around a place. -/
inductive Sees (D : Discipline) (W : World) : Chain → List Layer → Prop where
  | global {l} : W.Shows D [] l → Sees D W [] [l]
  | inner {i c l Γ} :
      i < W.scopes.inner.size → (∀ j ∈ c, j < i) → W.Shows D (i :: c) l → Sees D W c Γ →
      Sees D W (i :: c) (l :: Γ)

theorem Sees.has {D : Discipline} {W : World} {c : Chain} {Γ : List Layer} (h : Sees D W c Γ) :
    W.scopes.Has c := by
  cases h with
  | global _ => exact ScopeTree.has_nil _
  | inner hi _ _ _ => exact ScopeTree.has_cons.mpr hi

theorem Sees.lt_size {D : Discipline} {W : World} {c : Chain} {Γ : List Layer} (h : Sees D W c Γ) :
    ∀ i ∈ c, i < W.scopes.inner.size := by
  cases h with
  | global _ => simp
  | inner hi hc _ _ =>
    intro j hj
    rcases List.mem_cons.mp hj with rfl | hj
    · exact hi
    · exact Nat.lt_trans (hc j hj) hi

theorem Sees.find? {D : Discipline} {W : World} {c : Chain} {Γ : List Layer} (h : Sees D W c Γ)
    {x : String} {ty : Ty} (hx : Context.findIn x (Γ.map Layer.scope) = some ty)
    (hc : ¬ D.Blind → Clear x Γ) :
    ∃ ty', W.scopes.find? c x = some ty' ∧ (¬ D.Blind → ty' = ty) := by
  induction h with
  | @global l hl =>
    simp only [List.map_cons, List.map_nil, Context.findIn] at hx
    cases hs : l.scope.find? x with
    | some t =>
      rw [hs] at hx; cases hx
      exact ⟨ty, hl.grown.find? hs, fun _ => rfl⟩
    | none => rw [hs] at hx; cases hx
  | @inner i c l Γ _ _ hl _ ih =>
    simp only [List.map_cons, Context.findIn] at hx
    simp only [ScopeTree.find?]
    cases hs : l.scope.find? x with
    | some t =>
      rw [hs] at hx; cases hx
      rw [hl.grown.find? hs]
      exact ⟨ty, rfl, fun _ => rfl⟩
    | none =>
      rw [hs] at hx
      have hb : ¬ l.scope.binds x = true := by simp [Scope.binds, hs]
      obtain ⟨ty', hty', heq⟩ := ih hx fun hD => ((hc hD).resolve_left hb).2
      cases hw : (W.scopes.scope (i :: c)).find? x with
      | none => exact ⟨ty', hty', heq⟩
      | some t =>
        -- A new binding of the scope got in the way, so types do not matter.
        refine ⟨t, rfl, fun hD => ?_⟩
        exfalso
        rcases ((hc hD).resolve_left hb).1 with hlive | hlets
        · rw [hl.live hlive, hs] at hw; cases hw
        · have hm : ¬ D.May l.lets x := fun hm => hm.elim hD hlets
          rw [hl.grown.find?_none hs hm] at hw; cases hw

end World

/-! ## Values and states -/

def Closure.Fine (D : Discipline) (W : World) (c : Closure) : Prop :=
  ∃ Γ lets s', W.Sees D c.scope Γ ∧ (∀ l ∈ Γ, l.live = false) ∧
    Typed D ⟨Γ, lets⟩ ⟨[(c.param, c.paramTy)]⟩ c.body c.resultTy s'

def Value.Fine (D : Discipline) (W : World) : Value → Prop
  | .closure c => c.Fine D W
  | .ref i => i < W.cells.size
  | _ => True

structure HasTy (D : Discipline) (W : World) (v : Value) (ty : Ty) : Prop where
  fine : v.Fine D W
  fits : D.fits (W.tyOf v) ty

structure State.Fine (D : Discipline) (W : World) (s : State) : Prop where
  size : s.scopes.inner.size = W.scopes.inner.size
  scopes : ∀ c, List.Forall₂ (fun b t => b.1 = t.1 ∧ HasTy D W b.2 t.2)
    (s.scopes.scope c).bindings (W.scopes.scope c).bindings
  cellTys : s.cells.map Cell.ty = W.cells
  cells : ∀ cell ∈ s.cells, HasTy D W cell.contents cell.ty

theorem lookup_related {R : Value → Ty → Prop} {bs : List (String × Value)} {ts : List (String × Ty)}
    (h : List.Forall₂ (fun b t => b.1 = t.1 ∧ R b.2 t.2) bs ts) (x : String) :
    bs.lookup x = none ∧ ts.lookup x = none ∨
      ∃ v ty, bs.lookup x = some v ∧ ts.lookup x = some ty ∧ R v ty := by
  induction h with
  | nil => exact .inl ⟨rfl, rfl⟩
  | @cons b t bs ts hbt _ ih =>
    obtain ⟨y, v⟩ := b
    obtain ⟨y', ty⟩ := t
    obtain ⟨rfl, hv⟩ := hbt
    simp only [List.lookup_cons]
    cases x == y with
    | true => exact .inr ⟨v, ty, rfl, rfl, hv⟩
    | false => exact ih

namespace State.Fine

variable {D : Discipline} {W : World} {s : State}

theorem find?_scope (h : s.Fine D W) (c : Chain) (x : String) :
    (s.scopes.scope c).find? x = none ∧ (W.scopes.scope c).find? x = none ∨
      ∃ v ty, (s.scopes.scope c).find? x = some v ∧ (W.scopes.scope c).find? x = some ty ∧ HasTy D W v ty :=
  lookup_related (h.scopes c) x

theorem names (h : s.Fine D W) (c : Chain) : (s.scopes.scope c).names = (W.scopes.scope c).names := by
  have hn : List.Forall₂ (· = ·) (s.scopes.scope c).names (W.scopes.scope c).names := by
    unfold Scope.names
    rw [List.forall₂_map_left_iff, List.forall₂_map_right_iff]
    exact (h.scopes c).imp fun _ _ hbt => hbt.1
  rwa [List.forall₂_eq_eq_eq] at hn

theorem binds (h : s.Fine D W) (c : Chain) (x : String) :
    (s.scopes.scope c).binds x = (W.scopes.scope c).binds x := by
  unfold Scope.binds
  rcases h.find?_scope c x with ⟨hs, hw⟩ | ⟨v, ty, hs, hw, -⟩
  · rw [hs, hw]; rfl
  · rw [hs, hw]; rfl

theorem find? (h : s.Fine D W) {c : Chain} {x : String} {ty : Ty} (hx : W.scopes.find? c x = some ty) :
    ∃ v, s.scopes.find? c x = some v ∧ HasTy D W v ty := by
  induction c with
  | nil =>
    rcases h.find?_scope [] x with ⟨-, hw⟩ | ⟨v, t, hs, hw, hv⟩
    · rw [ScopeTree.find?] at hx; rw [ScopeTree.scope, hx] at hw; cases hw
    · rw [ScopeTree.find?] at hx; rw [ScopeTree.scope, hx] at hw; cases hw
      exact ⟨v, hs, hv⟩
  | cons i c ih =>
    simp only [ScopeTree.find?] at hx ⊢
    rcases h.find?_scope (i :: c) x with ⟨hs, hw⟩ | ⟨v, t, hs, hw, hv⟩
    · rw [hw] at hx; rw [hs]; exact ih hx
    · rw [hw] at hx; cases hx
      rw [hs]; exact ⟨v, rfl, hv⟩

theorem cellTy (h : s.Fine D W) (i : Nat) : s.cells.cellTy i = W.cells.getD i .dyn := by
  rw [← h.cellTys, Cells.cellTy, Array.getD_eq_getD_getElem?, Array.getElem?_map]
  cases s.cells[i]? <;> rfl

theorem typeOf (h : s.Fine D W) (v : Value) : s.cells.typeOf v = W.tyOf v := by
  cases v with
  | ref i => simp only [Cells.typeOf, World.tyOf, h.cellTy]
  | _ => rfl

end State.Fine

/-! ## Growth -/

namespace World

structure Le (D : Discipline) (W W' : World) : Prop where
  size : W.scopes.inner.size ≤ W'.scopes.inner.size
  cells : ∃ more, W'.cells = W.cells ++ more
  lets : ∀ c, W.scopes.Has c → D.Blind ∨ W'.lets c.head? = W.lets c.head?
  grown : ∀ c, W.scopes.Has c →
    (W.scopes.scope c).GrownBy (D.May (W.lets c.head?)) (W'.scopes.scope c)

/-- Growth that changes at most the scope at `k`. -/
structure LeAt (D : Discipline) (k : Option Nat) (W W' : World) : Prop extends Le D W W' where
  away : ∀ c, W.scopes.Has c → c.head? ≠ k →
    W'.scopes.scope c = W.scopes.scope c ∧ W'.lets c.head? = W.lets c.head?

variable {D : Discipline} {W W' W'' : World}

theorem Le.refl (D : Discipline) (W : World) : Le D W W :=
  ⟨Nat.le_refl _, ⟨#[], by simp⟩, fun _ _ => .inr rfl, fun _ _ => .refl _ _⟩

theorem Le.has (h : Le D W W') {c : Chain} (hc : W.scopes.Has c) : W'.scopes.Has c :=
  fun i hi => Nat.lt_of_lt_of_le (hc i hi) h.size

theorem May.congr {lets lets' : List String} (h : D.Blind ∨ lets = lets') {x : String}
    (hx : D.May lets x) : D.May lets' x := by
  rcases h with hb | rfl
  · exact .inl hb
  · exact hx

theorem Le.trans (h : Le D W W') (h' : Le D W' W'') : Le D W W'' := by
  refine ⟨Nat.le_trans h.size h'.size, ?_, fun c hc => ?_, fun c hc => ?_⟩
  · obtain ⟨more, hm⟩ := h.cells
    obtain ⟨more', hm'⟩ := h'.cells
    exact ⟨more ++ more', by rw [hm', hm, Array.append_assoc]⟩
  · rcases h.lets c hc with hb | hl
    · exact .inl hb
    · exact hl ▸ h'.lets c (h.has hc)
  · exact (h.grown c hc).trans ((h'.grown c (h.has hc)).mono fun x => May.congr (h.lets c hc))

theorem Le.tyOf (h : Le D W W') {v : Value} (hv : v.Fine D W) : W'.tyOf v = W.tyOf v := by
  cases v with
  | ref i =>
    obtain ⟨more, hm⟩ := h.cells
    have hi : i < W.cells.size := hv
    simp only [World.tyOf, hm, Array.getD_eq_getD_getElem?, Array.getElem?_append_left hi]
  | _ => rfl

theorem Shows.mono {c : Chain} {l : Layer} (h : W.Shows D c l) (hle : Le D W W') (hc : W.scopes.Has c)
    (hl : l.live = false) : W'.Shows D c l := by
  refine ⟨?_, h.grown.trans ((hle.grown c hc).mono fun x => May.congr h.lets), fun ht => ?_⟩
  · rcases h.lets with hb | he
    · exact .inl hb
    · exact he ▸ hle.lets c hc
  · rw [hl] at ht; cases ht

theorem Sees.mono {c : Chain} {Γ : List Layer} (h : Sees D W c Γ) (hle : Le D W W')
    (hΓ : ∀ l ∈ Γ, l.live = false) : Sees D W' c Γ := by
  induction h with
  | global hl => exact .global (hl.mono hle (ScopeTree.has_nil _) (hΓ _ List.mem_cons_self))
  | inner hi hc hl _ ih =>
    refine .inner (Nat.lt_of_lt_of_le hi hle.size) hc ?_ (ih fun l hm => hΓ l (List.mem_cons_of_mem _ hm))
    exact hl.mono hle (ScopeTree.has_cons.mpr hi) (hΓ _ List.mem_cons_self)

/-- The scopes of a chain are seen unchanged while another scope grows. -/
theorem Sees.away {k : Option Nat} {c : Chain} {Γ : List Layer} (h : Sees D W c Γ) (hle : LeAt D k W W')
    (hk : k ≠ none) (hc : ∀ i ∈ c, some i ≠ k) : Sees D W' c Γ := by
  have shows_away : ∀ {c l}, W.Shows D c l → W.scopes.Has c → c.head? ≠ k → W'.Shows D c l := by
    intro c l hl hc hk
    obtain ⟨hs, hlets⟩ := hle.away c hc hk
    exact ⟨by rw [hlets]; exact hl.lets, by rw [hs]; exact hl.grown, by rw [hs]; exact hl.live⟩
  induction h with
  | global hl => exact .global (shows_away hl (ScopeTree.has_nil _) hk.symm)
  | @inner i c l Γ hi hlt hl _ ih =>
    refine .inner (Nat.lt_of_lt_of_le hi hle.size) hlt ?_ (ih fun j hj => hc j (List.mem_cons_of_mem _ hj))
    exact shows_away hl (ScopeTree.has_cons.mpr hi) (hc i List.mem_cons_self)

end World

theorem HasTy.mono {D : Discipline} {W W' : World} {v : Value} {ty : Ty} (h : HasTy D W v ty)
    (hle : W.Le D W') : HasTy D W' v ty := by
  refine ⟨?_, by rw [hle.tyOf h.fine]; exact h.fits⟩
  have hf := h.fine
  cases v with
  | closure c =>
    obtain ⟨Γ, lets, s', hs, hl, ht⟩ := hf
    exact ⟨Γ, lets, s', hs.mono hle hl, hl, ht⟩
  | ref i =>
    obtain ⟨more, hm⟩ := hle.cells
    have hi : i < W.cells.size := hf
    show i < W'.cells.size
    rw [hm, Array.size_append]; omega
  | _ => trivial

/-! ## What a step does to a world -/

namespace World

def declare (W : World) (c : Chain) (x : String) (ty : Ty) : World :=
  { W with scopes := W.scopes.modify (·.insert x ty) c }

def grow (W : World) (c : Chain) (s : Scope Ty) (lets : List String) : World :=
  { W with
    scopes := (W.scopes.grow c s).2
    lets := fun k => if k = some W.scopes.inner.size then lets else W.lets k }

def alloc (W : World) (ty : Ty) : World :=
  { W with cells := W.cells.push ty }

variable {D : Discipline} {W : World}

theorem declare_le {c : Chain} {x : String} (hc : W.scopes.Has c)
    (hx : (W.scopes.scope c).binds x = false) (hm : D.May (W.lets c.head?) x) (ty : Ty) :
    LeAt D c.head? W (W.declare c x ty) := by
  have away : ∀ c', c'.head? ≠ c.head? → (W.declare c x ty).scopes.scope c' = W.scopes.scope c' :=
    fun c' h => ScopeTree.scope_modify_of_ne h _
  refine ⟨⟨by simp [declare], ⟨#[], by simp [declare]⟩, fun _ _ => .inr rfl, fun c' _ => ?_⟩,
    fun c' _ h => ⟨away c' h, rfl⟩⟩
  by_cases h : c'.head? = c.head?
  · rw [ScopeTree.scope_congr _ h, ScopeTree.scope_congr _ h, h]
    simp only [declare, ScopeTree.scope_modify hc]
    exact .insert hx hm ty
  · rw [away c' h]; exact .refl _ _

theorem grow_le (D : Discipline) (W : World) (c : Chain) (s : Scope Ty) (lets : List String) :
    LeAt D (some W.scopes.inner.size) W (W.grow c s lets) := by
  have old : ∀ c', W.scopes.Has c' → (W.grow c s lets).scopes.scope c' = W.scopes.scope c' ∧
      (W.grow c s lets).lets c'.head? = W.lets c'.head? := by
    intro c' hc'
    exact ⟨ScopeTree.scope_grow_old _ c s hc'.head_ne, by simp only [grow, hc'.head_ne, ite_false]⟩
  refine ⟨⟨by simp [grow], ⟨#[], by simp [grow]⟩, fun c' h => .inr (old c' h).2, fun c' h => ?_⟩,
    fun c' h _ => old c' h⟩
  rw [(old c' h).1]; exact .refl _ _

theorem alloc_le (D : Discipline) (k : Option Nat) (W : World) (ty : Ty) : LeAt D k W (W.alloc ty) :=
  ⟨⟨Nat.le_refl _, ⟨#[ty], by simp [alloc]⟩, fun _ _ => .inr rfl,
    fun _ _ => .refl _ _⟩, fun _ _ _ => ⟨rfl, rfl⟩⟩

end World

namespace State.Fine

variable {D : Discipline} {W : World} {s : State}

theorem congr {s' : State} (h : s.Fine D W) (hs : s'.scopes = s.scopes) (hc : s'.cells = s.cells) :
    s'.Fine D W := by
  obtain ⟨h₁, h₂, h₃, h₄⟩ := h
  exact ⟨by rw [hs]; exact h₁, by rw [hs]; exact h₂, by rw [hc]; exact h₃, by rw [hc]; exact h₄⟩

theorem has (h : s.Fine D W) {c : Chain} (hc : W.scopes.Has c) : s.scopes.Has c :=
  fun i hi => h.size ▸ hc i hi

theorem scopes_mono (h : s.Fine D W) {W' : World} (hle : W.Le D W') {c : Chain}
    (hc : W'.scopes.scope c = W.scopes.scope c) :
    List.Forall₂ (fun b t => b.1 = t.1 ∧ HasTy D W' b.2 t.2)
      (s.scopes.scope c).bindings (W'.scopes.scope c).bindings := by
  rw [hc]
  exact (h.scopes c).imp fun _ _ hbt => ⟨hbt.1, hbt.2.mono hle⟩

theorem declare (h : s.Fine D W) {c : Chain} (hc : W.scopes.Has c) {x : String} {v : Value} {ty : Ty}
    (hx : (W.scopes.scope c).binds x = false) (hm : D.May (W.lets c.head?) x) (hv : HasTy D W v ty) :
    State.Fine D (W.declare c x ty) { s with scopes := s.scopes.modify (·.insert x v) c } := by
  have hle := (W.declare_le hc hx hm ty).toLe
  refine ⟨by simpa [World.declare] using h.size, fun c' => ?_, h.cellTys,
    fun cell hcell => (h.cells cell hcell).mono hle⟩
  by_cases hcc : c'.head? = c.head?
  · rw [ScopeTree.scope_congr _ hcc, ScopeTree.scope_congr _ hcc]
    simp only [World.declare, ScopeTree.scope_modify hc, ScopeTree.scope_modify (h.has hc),
      Scope.bindings_insert]
    refine .cons ⟨rfl, hv.mono hle⟩ ?_
    exact (h.scopes c).imp fun _ _ hbt => ⟨hbt.1, hbt.2.mono hle⟩
  · rw [ScopeTree.scope_modify_of_ne hcc]
    exact h.scopes_mono hle (ScopeTree.scope_modify_of_ne hcc _)

theorem grow (h : s.Fine D W) (c : Chain) {new : Scope Value} {types : Scope Ty} (lets : List String)
    (hn : List.Forall₂ (fun b t => b.1 = t.1 ∧ HasTy D W b.2 t.2) new.bindings types.bindings) :
    State.Fine D (W.grow c types lets) { s with scopes := (s.scopes.grow c new).2 } := by
  have hle := (W.grow_le D c types lets).toLe
  refine ⟨by simpa [World.grow] using h.size, fun c' => ?_, h.cellTys,
    fun cell hcell => (h.cells cell hcell).mono hle⟩
  by_cases hc' : c'.head? = some W.scopes.inner.size
  · rw [ScopeTree.scope_grow_new _ c new (h.size ▸ hc'), World.grow, ScopeTree.scope_grow_new _ c types hc']
    exact hn.imp fun _ _ hbt => ⟨hbt.1, hbt.2.mono hle⟩
  · rw [ScopeTree.scope_grow_old _ c new (h.size ▸ hc')]
    exact h.scopes_mono hle (ScopeTree.scope_grow_old _ c types hc')

theorem alloc (h : s.Fine D W) {v : Value} {ty : Ty} (hv : HasTy D W v ty) :
    State.Fine D (W.alloc ty) { s with cells := s.cells.push ⟨ty, v⟩ } := by
  have hle := (W.alloc_le D none ty).toLe
  refine ⟨h.size, fun c => h.scopes_mono hle rfl, by simp [World.alloc, h.cellTys], fun cell hcell => ?_⟩
  rcases Array.mem_push.mp hcell with hcell | rfl
  · exact (h.cells cell hcell).mono hle
  · exact hv.mono hle

theorem contents (h : s.Fine D W) {i : Nat} (hi : i < W.cells.size) :
    HasTy D W (s.cells.contents i) (W.cells.getD i .dyn) := by
  have hsize : s.cells.size = W.cells.size := by rw [← h.cellTys, Array.size_map]
  have hget := Array.getElem?_eq_getElem (hsize ▸ hi)
  have := h.cells _ (Array.getElem_mem (hsize ▸ hi))
  rw [← h.cellTy, Cells.cellTy, Cells.contents, hget]
  exact this

theorem write (h : s.Fine D W) {i : Nat} {v : Value} (hv : HasTy D W v (W.cells.getD i .dyn)) :
    State.Fine D W { s with cells := s.cells.write i v } := by
  refine ⟨h.size, h.scopes, ?_, fun cell hcell => ?_⟩
  · rw [← h.cellTys]
    apply Array.ext
    · simp [Cells.write]
    · intro j h₁ h₂
      simp only [Cells.write, Array.getElem_map, Array.getElem_modify]
      split <;> rfl
  · obtain ⟨j, hj, rfl⟩ := Array.mem_iff_getElem.mp hcell
    have hj' : j < s.cells.size := by simpa [Cells.write] using hj
    simp only [Cells.write, Array.getElem_modify]
    split
    · rename_i hij
      subst hij
      have := h.cellTy i
      rw [Cells.cellTy, Array.getElem?_eq_getElem hj'] at this
      rw [← this] at hv
      exact hv
    · exact h.cells _ (Array.getElem_mem hj')

end State.Fine

end Gradual

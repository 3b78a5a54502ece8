import Gradual.Eval.Bridge
import Gradual.Proofs.Scopes
import Mathlib.Logic.Relation

/-!
# What a run does to the state

Whatever a program does, checked or not, each step of the machine changes the
state by moves of a few kinds (`State.Move`). None of them takes anything
away: scopes keep the bindings they have (`Machine.Reaches.extends`), cells
keep their types (`State.Moves.cells`), and what was printed stays printed
(`State.Moves.written`). Most actions do not move the scopes at all
(`State.Touch`).
-/

namespace Gradual

/-! ## Moves -/

/-- A move that leaves the scopes as they are. -/
inductive State.Touch : State → State → Prop where
  | event (s : State) (e : Event) : Touch s { s with log := s.log.push e }
  | closure (s : State) : Touch s { s with closures := s.closures + 1 }
  | cell (s : State) (ty : Ty) (v : Value) : Touch s { s with cells := s.cells.push ⟨ty, v⟩ }
  | write (s : State) (i : Nat) (v : Value) : Touch s { s with cells := s.cells.write i v }
  | print (s : State) (bytes : ByteArray) : Touch s { s with sink := s.sink.write bytes }

inductive State.Move : State → State → Prop where
  | touch {s s' : State} (h : s.Touch s') : Move s s'
  | bind (s : State) (c : Chain) (x : String) (v : Value) (h : (s.scopes.scope c).binds x = false) :
      Move s { s with scopes := s.scopes.modify (·.insert x v) c }
  | scope (s : State) (c : Chain) (new : Scope Value) : Move s { s with scopes := (s.scopes.grow c new).2 }

abbrev State.Moves : State → State → Prop :=
  Relation.ReflTransGen State.Move

def finalState {ε σ α : Type} : EStateM.Result ε σ α → σ
  | .ok _ s => s
  | .error _ s => s

/-- All that the action does is moves of the kind `R`. -/
def Moving (R : State → State → Prop) {α : Type} (x : EvalM α) : Prop :=
  ∀ s : State, Relation.ReflTransGen R s (finalState (x s))

namespace Moving

open EvalM

variable {α β : Type} {R : State → State → Prop}

theorem moves {x : EvalM α} (h : Moving State.Touch x) : Moving State.Move x := by
  intro s
  exact Relation.ReflTransGen.mono (fun _ _ => State.Move.touch) _ _ (h s)

theorem pure (a : α) : Moving R (Pure.pure a : EvalM α) :=
  fun _ => .refl

theorem throw (err : RuntimeError) : Moving R (MonadExcept.throw err : EvalM α) :=
  fun _ => .refl

theorem bind {x : EvalM α} {g : α → EvalM β} (hx : Moving R x) (hg : ∀ a, Moving R (g a)) :
    Moving R (x >>= g) := by
  intro s
  have hxs := hx s
  simp only [Bind.bind, EStateM.bind]
  cases h : x s with
  | ok a s₁ =>
    rw [h] at hxs
    exact hxs.trans (hg a s₁)
  | error err s₁ => rw [h] at hxs; exact hxs

theorem emit (e : Event) : Moving State.Touch (EvalM.emit e) :=
  fun s => .single (.event s e)

theorem unexpected (what : String) (v : Value) : Moving R (EvalM.unexpected what v : EvalM α) :=
  fun _ => .refl

theorem asBool (v : Value) : Moving R (EvalM.asBool v) := by
  cases v with
  | bool b => exact .pure b
  | _ => exact .unexpected _ _

theorem asInt (v : Value) : Moving R (EvalM.asInt v) := by
  cases v with
  | int n => exact .pure n
  | _ => exact .unexpected _ _

theorem asClosure (v : Value) : Moving R (EvalM.asClosure v) := by
  cases v with
  | closure c => exact .pure c
  | _ => exact .unexpected _ _

theorem asCell (v : Value) : Moving R (EvalM.asCell v) := by
  cases v with
  | ref i => exact .pure i
  | _ => exact .unexpected _ _

theorem operateInt (op : BinOp) (a b : Int64) : Moving R (EvalM.operateInt op a b) := by
  cases op with
  | div | mod =>
    unfold EvalM.operateInt
    by_cases hb : b = 0
    · simp only [hb, ite_true]; exact .throw _
    · simp only [hb, ite_false]; exact .pure _
  | _ => exact .pure _

theorem operate (op : BinOp) (a b : Value) : Moving R (EvalM.operate op a b) := by
  have main : Moving R (EvalM.asInt a >>= fun a => EvalM.asInt b >>= fun b => EvalM.operateInt op a b) :=
    (asInt a).bind fun _ => (asInt b).bind fun _ => operateInt op _ _
  cases op with
  | eq | ne => exact .pure _
  | _ => exact main

theorem resolve (c : Chain) (x : String) : Moving R (EvalM.resolve c x) := by
  intro s
  simp only [EvalM.resolve, get_bind_run]
  cases s.scopes.resolve c x <;> exact .refl

theorem declare (c : Chain) (x : String) (v : Value) : Moving State.Move (EvalM.declare c x v) := by
  intro s
  rw [EvalM.declare_eq]
  by_cases hx : (s.scopes.scope c).binds x = true
  · simp only [hx, ite_true]; exact .refl
  · simp only [hx]; exact .single (.bind s c x v (by simpa using hx))

theorem openScope (c : Chain) (new : Scope Value) : Moving State.Move (EvalM.openScope c new) :=
  fun s => .single (.scope s c new)

theorem makeClosure (c : Chain) (x : String) (xTy : Ty) (ret : Option Ty) (body : Expr) :
    Moving State.Touch (EvalM.makeClosure c x xTy ret body) := by
  cases ret with
  | none => exact .throw _
  | some ret => exact fun s => .single (.closure s)

theorem enter (f : Closure) (arg : Value) (d : Nat) : Moving State.Move (EvalM.enter f arg d) :=
  (emit _).moves.bind fun _ => openScope _ _

theorem cellTyOf (ty : Option Ty) : Moving R (EvalM.cellTyOf ty) := by
  cases ty with
  | none => exact .throw _
  | some ty => exact .pure ty

theorem allocate (ty : Ty) (v : Value) : Moving State.Touch (EvalM.allocate ty v) :=
  fun s => .single (.cell s ty v)

theorem read (i : Nat) : Moving R (EvalM.read i) :=
  fun _ => .refl

theorem write (i : Nat) (v : Value) : Moving State.Touch (EvalM.write i v) :=
  fun s => .single (.write s i v)

theorem print (v : Value) : Moving State.Touch (EvalM.print v) := by
  intro s
  have h : Relation.ReflTransGen State.Touch s { s with sink := s.sink.write (s.cells.text v ++ "\n").toUTF8 } :=
    .single (.print s _)
  simp only [EvalM.print]
  cases s.sink.fits (s.cells.text v ++ "\n").toUTF8.size <;> exact h

theorem castTo (target : Ty) (v : Value) : Moving State.Touch (EvalM.castTo target v) := by
  intro s
  simp only [EvalM.castTo, get_bind_run]
  cases (s.cells.typeOf v).consistent target with
  | true => exact .refl
  | false => exact .single (.event s _)

end Moving

/-! ## Machines -/

namespace Machine

/-- All that the actions of a machine do to the state is moves of the kind `R`,
where calls begin at depths that are `fit`. -/
structure Actions (R : State → State → Prop) (fit : Nat → Prop) : Prop where
  declare : ∀ c x v, Moving R (EvalM.declare c x v)
  openScope : ∀ c new, Moving R (EvalM.openScope c new)
  makeClosure : ∀ c x xTy ret body, Moving R (EvalM.makeClosure c x xTy ret body)
  enter : ∀ f arg d, fit d → Moving R (EvalM.enter f arg d)
  allocate : ∀ ty v, Moving R (EvalM.allocate ty v)
  write : ∀ i v, Moving R (EvalM.write i v)
  print : ∀ v, Moving R (EvalM.print v)
  castTo : ∀ target v, Moving R (EvalM.castTo target v)

variable {α : Type} {K : List Frame} {d : Nat} {s : State} {R : State → State → Prop} {fit : Nat → Prop}

theorem moves_andThen {x : EvalM α} {next : α → State → Machine} (hx : Moving R x)
    (hnext : ∀ a s', Relation.ReflTransGen R s s' → Relation.ReflTransGen R s (next a s').state) :
    Relation.ReflTransGen R s (andThen K d (x s) next).state := by
  have hxs := hx s
  cases h : x s with
  | ok a s' => rw [h] at hxs; exact hnext a s' hxs
  | error err s' => rw [h] at hxs; exact hxs

theorem moves_hand {x : EvalM Value} (hx : Moving R x) :
    Relation.ReflTransGen R s (hand K d (x s)).state :=
  moves_andThen hx fun _ _ h => h

theorem Actions.visit (hR : Actions R fit) (c : Chain) (e : Expr) :
    Relation.ReflTransGen R s (visit c K d s e).state := by
  cases e with
  | var x => exact moves_hand (.resolve c x)
  | lam x xTy ret body => exact moves_hand (hR.makeClosure c x xTy ret body)
  | alloc v ty => exact moves_andThen (.cellTyOf ty) fun _ _ h => h
  | _ => exact .refl

theorem Actions.resume (hR : Actions R fit) {limit : Nat} (hfit : d < limit → fit d) (v : Value) (f : Frame) :
    Relation.ReflTransGen R s (resume limit v K d s f).state := by
  cases f with
  | operate op a => exact moves_hand (.operate op a v)
  | branch t e c =>
    refine moves_andThen (.asBool v) fun b s' h => h.trans ?_
    exact moves_andThen (hR.openScope c {}) fun _ _ h => h
  | argument a c => exact moves_andThen (.asClosure v) fun _ _ h => h
  | call g =>
    unfold Machine.resume
    by_cases hd : d < limit
    · simp only [hd, ite_true]; exact moves_andThen (hR.enter g v d (hfit hd)) fun _ _ h => h
    · simp only [hd, ite_false]; exact .refl
  | seq es c => cases es <;> exact .refl
  | declare x c => exact moves_hand (hR.declare c x v)
  | assigned e c => exact moves_andThen (.asCell v) fun _ _ h => h
  | write i => exact moves_hand (hR.write i v)
  | deref => exact moves_andThen (.asCell v) fun i _ h => h.trans (moves_hand (.read i))
  | allocate ty => exact moves_hand (hR.allocate ty v)
  | print => exact moves_hand (hR.print v)
  | cast ty => exact moves_hand (hR.castTo ty v)
  | _ => exact .refl

theorem Actions.step (hR : Actions R fit) {limit : Nat} {m m' : Machine} (h : step limit m = .running m')
    (hfit : m.depth < limit → fit m.depth) : Relation.ReflTransGen R m.state m'.state := by
  obtain ⟨focus, K, d, s⟩ := m
  cases focus with
  | eval e c => cases h; exact hR.visit c e
  | done r =>
    cases K with
    | nil => cases r <;> cases h
    | cons f K =>
      cases r with
      | ok v => cases h; exact hR.resume hfit v f
      | error err => cases h; cases f <;> exact .refl

theorem actions_move : Actions State.Move fun _ => True where
  declare := .declare
  openScope := .openScope
  makeClosure c x xTy ret body := (Moving.makeClosure c x xTy ret body).moves
  enter f arg d _ := .enter f arg d
  allocate ty v := (Moving.allocate ty v).moves
  write i v := (Moving.write i v).moves
  print v := (Moving.print v).moves
  castTo target v := (Moving.castTo target v).moves

theorem moves_step {limit : Nat} {m m' : Machine} (h : step limit m = .running m') :
    m.state.Moves m'.state :=
  actions_move.step h fun _ => trivial

theorem Reaches.moves {limit : Nat} {m m' : Machine} (h : Reaches limit m m') : m.state.Moves m'.state := by
  induction h with
  | refl m => exact .refl
  | head hs _ ih => exact (moves_step hs).trans ih

theorem Reaches.error {limit : Nat} {m n : Machine} (hr : Reaches limit m n) {err : RuntimeError}
    (hm : m.focus = .done (.error err)) : n.focus = .done (.error err) ∧ n.state = m.state := by
  induction hr with
  | refl m => exact ⟨hm, rfl⟩
  | @head m m₁ n hs _ ih =>
    obtain ⟨focus, K, d, s⟩ := m
    cases hm
    cases K with
    | nil => cases hs
    | cons f K =>
      cases hs
      have hu : (unwind err K d s f).focus = .done (.error err) ∧ (unwind err K d s f).state = s := by
        cases f <;> exact ⟨rfl, rfl⟩
      obtain ⟨hn, hst⟩ := ih hu.1
      exact ⟨hn, hst.trans hu.2⟩

end Machine

/-! ## Runs only add bindings -/

namespace ScopeTree

variable {V : Type}

structure Extends (t t' : ScopeTree V) : Prop where
  size : t.inner.size ≤ t'.inner.size
  scopes : ∀ c, t.Has c → ∃ new, (t'.scope c).bindings = new ++ (t.scope c).bindings

variable {t t' t'' : ScopeTree V}

theorem Extends.refl (t : ScopeTree V) : t.Extends t :=
  ⟨Nat.le_refl _, fun _ _ => ⟨[], rfl⟩⟩

theorem Extends.trans (h : t.Extends t') (h' : t'.Extends t'') : t.Extends t'' := by
  refine ⟨Nat.le_trans h.size h'.size, fun c hc => ?_⟩
  obtain ⟨new, hn⟩ := h.scopes c hc
  obtain ⟨new', hn'⟩ := h'.scopes c fun i hi => Nat.lt_of_lt_of_le (hc i hi) h.size
  exact ⟨new' ++ new, by rw [hn', hn, List.append_assoc]⟩

theorem extends_grow (t : ScopeTree V) (c : Chain) (s : Scope V) : t.Extends (t.grow c s).2 := by
  refine ⟨by simp, fun c' hc' => ⟨[], ?_⟩⟩
  rw [scope_grow_old t c s hc'.head_ne]; rfl

theorem extends_insert (t : ScopeTree V) (c : Chain) (x : String) (v : V) :
    t.Extends (t.modify (·.insert x v) c) := by
  refine ⟨by simp, fun c' hc' => ?_⟩
  by_cases h : c'.head? = c.head?
  · have hc : t.Has c := fun i hi => hc' i (h ▸ hi)
    rw [scope_congr _ h, scope_congr t h, scope_modify hc]
    exact ⟨[(x, v)], rfl⟩
  · rw [scope_modify_of_ne h]
    exact ⟨[], rfl⟩

end ScopeTree

theorem State.Touch.scopes {s s' : State} (h : s.Touch s') : s'.scopes = s.scopes := by
  cases h <;> rfl

theorem Moving.scopes {α : Type} {x : EvalM α} (h : Moving State.Touch x) (s : State) :
    (finalState (x s)).scopes = s.scopes := by
  have hxs := h s
  generalize finalState (x s) = s' at hxs ⊢
  induction hxs with
  | refl => rfl
  | tail _ htouch ih => rw [htouch.scopes, ih]

theorem State.Move.extends {s s' : State} (h : s.Move s') : s.scopes.Extends s'.scopes := by
  cases h with
  | touch h => rw [h.scopes]; exact .refl _
  | bind c x v _ => exact s.scopes.extends_insert c x v
  | scope c new => exact s.scopes.extends_grow c new

theorem State.Moves.extends {s s' : State} (h : s.Moves s') : s.scopes.Extends s'.scopes := by
  induction h with
  | refl => exact .refl _
  | tail _ hmove ih => exact ih.trans hmove.extends

theorem Machine.Reaches.extends {limit : Nat} {m m' : Machine} (h : Reaches limit m m') :
    m.state.scopes.Extends m'.state.scopes :=
  h.moves.extends

/-! ## Runs only add cells -/

/-- The cells of the first are still there, with the types they had. -/
def Cells.KeptIn (cells cells' : Cells) : Prop :=
  ∀ (i : Nat) (cell : Cell), cells[i]? = some cell → ∃ now : Cell, cells'[i]? = some now ∧ now.ty = cell.ty

namespace Cells.KeptIn

variable {cells cells' cells'' : Cells}

theorem refl (cells : Cells) : cells.KeptIn cells :=
  fun _ cell h => ⟨cell, h, rfl⟩

theorem trans (h : cells.KeptIn cells') (h' : cells'.KeptIn cells'') : cells.KeptIn cells'' := by
  intro i cell hi
  obtain ⟨mid, hmid, hty⟩ := h i cell hi
  obtain ⟨now, hnow, hty'⟩ := h' i mid hmid
  exact ⟨now, hnow, hty'.trans hty⟩

theorem push (cells : Cells) (cell : Cell) : cells.KeptIn (cells.push cell) := by
  intro i old hi
  have hlt : i < cells.size := (Array.getElem?_eq_some_iff.mp hi).1
  refine ⟨old, ?_, rfl⟩
  rw [Array.getElem?_push_lt hlt, ← hi, Array.getElem?_eq_getElem hlt]

theorem write (cells : Cells) (j : Nat) (v : Value) : cells.KeptIn (cells.write j v) := by
  intro i old hi
  unfold Cells.write
  rw [Array.getElem?_modify, hi]
  by_cases hij : j = i
  · exact ⟨{ old with contents := v }, by simp [hij], rfl⟩
  · exact ⟨old, by simp [hij], rfl⟩

end Cells.KeptIn

theorem State.Move.cells {s s' : State} (h : s.Move s') : s.cells.KeptIn s'.cells := by
  cases h with
  | touch h =>
    cases h with
    | cell ty v => exact .push s.cells ⟨ty, v⟩
    | write i v => exact .write s.cells i v
    | _ => exact .refl _
  | _ => exact .refl _

theorem State.Moves.cells {s s' : State} (h : s.Moves s') : s.cells.KeptIn s'.cells := by
  induction h with
  | refl => exact .refl _
  | tail _ hmove ih => exact ih.trans hmove.cells

/-! ## Runs only add output -/

theorem Sink.written_write (s : Sink) (bytes : ByteArray) :
    ∃ rest, (s.write bytes).written = s.written ++ rest := by
  unfold Sink.write
  cases s.capacity <;> exact ⟨_, rfl⟩

theorem State.Move.written {s s' : State} (h : s.Move s') :
    ∃ rest, s'.sink.written = s.sink.written ++ rest := by
  cases h with
  | touch h =>
    cases h with
    | print bytes => exact s.sink.written_write bytes
    | _ => exact ⟨.empty, by simp⟩
  | _ => exact ⟨.empty, by simp⟩

theorem State.Moves.written {s s' : State} (h : s.Moves s') :
    ∃ rest, s'.sink.written = s.sink.written ++ rest := by
  induction h with
  | refl => exact ⟨.empty, by simp⟩
  | tail _ hmove ih =>
    obtain ⟨rest, hrest⟩ := ih
    obtain ⟨more, hmore⟩ := hmove.written
    exact ⟨rest ++ more, by rw [hmore, hrest, ByteArray.append_assoc]⟩

end Gradual

import Gradual.Eval.State
import Gradual.Proofs.Scopes

/-!
# Matching states

No action of the evaluator looks into the body of a function or into the log.
So when the bodies in a state are replaced all in the same way, and the log by
any other, every action does to the changed state what it does to the state,
with the same errors and the same text (`EvalM.Matches`).
-/

namespace Gradual

/-! ## Values, scopes and cells with other bodies -/

def Closure.mapBody (φ : Expr → Expr) (f : Closure) : Closure :=
  { f with body := φ f.body }

def Value.mapBody (φ : Expr → Expr) : Value → Value
  | .closure f => .closure (f.mapBody φ)
  | v => v

def Cell.mapBody (φ : Expr → Expr) (cell : Cell) : Cell :=
  { cell with contents := cell.contents.mapBody φ }

def Cells.mapBody (φ : Expr → Expr) (cells : Cells) : Cells :=
  cells.map (Cell.mapBody φ)

namespace Scope

variable {V W : Type}

def map (f : V → W) (s : Scope V) : Scope W :=
  ⟨s.bindings.map fun b => (b.1, f b.2)⟩

@[simp] theorem find?_map (f : V → W) (s : Scope V) (x : String) : (s.map f).find? x = (s.find? x).map f := by
  obtain ⟨bs⟩ := s
  simp only [find?, map]
  induction bs with
  | nil => rfl
  | cons b bs ih =>
    obtain ⟨y, v⟩ := b
    simp only [List.map_cons, List.lookup_cons]
    cases x == y with
    | true => rfl
    | false => exact ih

@[simp] theorem binds_map (f : V → W) (s : Scope V) (x : String) : (s.map f).binds x = s.binds x := by
  simp [binds]

end Scope

namespace ScopeTree

variable {V W : Type}

def map (f : V → W) (t : ScopeTree V) : ScopeTree W :=
  ⟨t.global.map f, t.inner.map (Scope.map f)⟩

@[simp] theorem scope_map (f : V → W) (t : ScopeTree V) (c : Chain) : (t.map f).scope c = (t.scope c).map f := by
  cases c with
  | nil => rfl
  | cons i c =>
    simp only [scope, map, Array.getD_eq_getD_getElem?, Array.getElem?_map]
    cases t.inner[i]? <;> rfl

@[simp] theorem find?_map (f : V → W) (t : ScopeTree V) (c : Chain) (x : String) :
    (t.map f).find? c x = (t.find? c x).map f := by
  induction c with
  | nil => exact Scope.find?_map f t.global x
  | cons i c ih =>
    simp only [find?, scope_map, Scope.find?_map, ih]
    cases (t.scope (i :: c)).find? x <;> rfl

theorem map_insert (f : V → W) (t : ScopeTree V) (c : Chain) (x : String) (v : V) :
    (t.modify (·.insert x v) c).map f = (t.map f).modify (·.insert x (f v)) c := by
  cases c with
  | nil => rfl
  | cons i c =>
    simp only [modify, map]
    congr 1
    apply Array.ext
    · simp
    · intro j h₁ h₂
      simp only [Array.getElem_map, Array.getElem_modify]
      split <;> rfl

theorem map_grow (f : V → W) (t : ScopeTree V) (c : Chain) (s : Scope V) :
    (t.map f).grow c (s.map f) = ((t.grow c s).1, (t.grow c s).2.map f) := by
  simp [grow, map]

end ScopeTree

namespace Cells

variable (φ : Expr → Expr) (cells : Cells)

@[simp] theorem cellTy_mapBody (i : Nat) : (cells.mapBody φ).cellTy i = cells.cellTy i := by
  simp only [cellTy, mapBody, Array.getElem?_map]
  cases cells[i]? <;> rfl

@[simp] theorem contents_mapBody (i : Nat) :
    (cells.mapBody φ).contents i = (cells.contents i).mapBody φ := by
  simp only [contents, mapBody, Array.getElem?_map]
  cases cells[i]? <;> rfl

@[simp] theorem typeOf_mapBody (v : Value) : (cells.mapBody φ).typeOf (v.mapBody φ) = cells.typeOf v := by
  cases v with
  | ref i => simp [Value.mapBody, typeOf]
  | _ => rfl

theorem textWithin_mapBody (hops : Nat) (v : Value) :
    (cells.mapBody φ).textWithin hops (v.mapBody φ) = cells.textWithin hops v := by
  induction hops generalizing v with
  | zero => cases v <;> simp [Value.mapBody, textWithin, Closure.text, Closure.mapBody]
  | succ hops ih =>
    cases v with
    | ref i =>
      show ("ref " ++ ·) <$> (cells.mapBody φ).textWithin hops ((cells.mapBody φ).contents i) = _
      rw [contents_mapBody, ih, textWithin]
    | _ => simp [Value.mapBody, textWithin, Closure.text, Closure.mapBody]

@[simp] theorem text_mapBody (v : Value) : (cells.mapBody φ).text (v.mapBody φ) = cells.text v := by
  have hsize : (cells.mapBody φ).size = cells.size := Array.size_map ..
  simp only [text, text?, hsize, textWithin_mapBody]

theorem mapBody_write (i : Nat) (v : Value) :
    (cells.write i v).mapBody φ = (cells.mapBody φ).write i (v.mapBody φ) := by
  apply Array.ext
  · simp [mapBody, write]
  · intro j h₁ h₂
    simp only [mapBody, write, Array.getElem_map, Array.getElem_modify]
    split <;> rfl

end Cells

/-! ## Matching states and results -/

/-- The second state is the first with the bodies changed by `φ`, and any log. -/
structure State.Matches (φ : Expr → Expr) (s s' : State) : Prop where
  scopes : s'.scopes = s.scopes.map (Value.mapBody φ)
  cells : s'.cells = s.cells.mapBody φ
  closures : s'.closures = s.closures
  sink : s'.sink = s.sink

inductive Reflects (φ : Expr → Expr) {α β : Type} (g : α → β) :
    EStateM.Result RuntimeError State α → EStateM.Result RuntimeError State β → Prop where
  | ok {a s s'} (h : s.Matches φ s') : Reflects φ g (.ok a s) (.ok (g a) s')
  | error {err s s'} (h : s.Matches φ s') : Reflects φ g (.error err s) (.error err s')

def EvalM.Matches (φ : Expr → Expr) {α β : Type} (g : α → β) (x : EvalM α) (y : EvalM β) : Prop :=
  ∀ s s' : State, s.Matches φ s' → Reflects φ g (x s) (y s')

namespace EvalM.Matches

variable {φ : Expr → Expr} {α β γ δ : Type} {g : α → β}

theorem pure (a : α) : Matches φ g (Pure.pure a) (Pure.pure (g a)) :=
  fun _ _ h => .ok h

theorem throw (err : RuntimeError) : Matches φ g (MonadExcept.throw err) (MonadExcept.throw err) :=
  fun _ _ h => .error h

theorem bind {x : EvalM α} {y : EvalM β} {k : α → EvalM γ} {k' : β → EvalM δ} {g' : γ → δ}
    (hx : Matches φ g x y) (hk : ∀ a, Matches φ g' (k a) (k' (g a))) : Matches φ g' (x >>= k) (y >>= k') := by
  intro s s' h
  have hxs := hx s s' h
  simp only [Bind.bind, EStateM.bind]
  generalize x s = rx at hxs ⊢
  generalize y s' = ry at hxs ⊢
  cases hxs with
  | ok h₁ => exact hk _ _ _ h₁
  | error h₁ => exact .error h₁

theorem emit (e : Event) : Matches φ id (EvalM.emit e) (EvalM.emit e) :=
  fun _ _ h => .ok ⟨h.scopes, h.cells, h.closures, h.sink⟩

theorem unexpected (what : String) (v : Value) :
    Matches φ g (EvalM.unexpected what v) (EvalM.unexpected what (v.mapBody φ)) := by
  intro s s' h
  have ht : s'.cells.text (v.mapBody φ) = s.cells.text v := by rw [h.cells, Cells.text_mapBody]
  have hk : (v.mapBody φ).kind = v.kind := by cases v <;> rfl
  have hy : EvalM.unexpected what (v.mapBody φ) s' =
      (.error (.internal what v.kind (s.cells.text v)) s' : EStateM.Result RuntimeError State β) := by
    rw [← ht, ← hk]; rfl
  rw [hy]
  exact .error h

theorem asBool (v : Value) : Matches φ id (EvalM.asBool v) (EvalM.asBool (v.mapBody φ)) := by
  cases v with
  | bool b => exact .pure b
  | _ => exact .unexpected _ _

theorem asInt (v : Value) : Matches φ id (EvalM.asInt v) (EvalM.asInt (v.mapBody φ)) := by
  cases v with
  | int n => exact .pure n
  | _ => exact .unexpected _ _

theorem asClosure (v : Value) :
    Matches φ (Closure.mapBody φ) (EvalM.asClosure v) (EvalM.asClosure (v.mapBody φ)) := by
  cases v with
  | closure f => exact .pure f
  | _ => exact .unexpected _ _

theorem asCell (v : Value) : Matches φ id (EvalM.asCell v) (EvalM.asCell (v.mapBody φ)) := by
  cases v with
  | ref i => exact .pure i
  | _ => exact .unexpected _ _

theorem operateInt (op : BinOp) (a b : Int64) :
    Matches φ (Value.mapBody φ) (EvalM.operateInt op a b) (EvalM.operateInt op a b) := by
  cases op with
  | div | mod =>
    unfold EvalM.operateInt
    by_cases hb : b = 0
    · simp only [hb, ite_true]; exact .throw _
    · simp only [hb, ite_false]; exact .pure (Value.int _)
  | add | sub | mul => exact .pure (Value.int _)
  | _ => exact .pure (Value.bool _)

theorem operate (op : BinOp) (a b : Value) :
    Matches φ (Value.mapBody φ) (EvalM.operate op a b) (EvalM.operate op (a.mapBody φ) (b.mapBody φ)) := by
  have hsame : (a.mapBody φ).same (b.mapBody φ) = a.same b := by cases a <;> cases b <;> rfl
  have main : Matches φ (Value.mapBody φ)
      (EvalM.asInt a >>= fun a => EvalM.asInt b >>= fun b => EvalM.operateInt op a b)
      (EvalM.asInt (a.mapBody φ) >>= fun a => EvalM.asInt (b.mapBody φ) >>= fun b => EvalM.operateInt op a b) :=
    (asInt a).bind fun _ => (asInt b).bind fun _ => operateInt op _ _
  cases op with
  | eq | ne =>
    simp only [EvalM.operate, hsame]
    exact .pure (Value.bool _)
  | _ => exact main

theorem resolve (c : Chain) (x : String) :
    Matches φ (Value.mapBody φ) (EvalM.resolve c x) (EvalM.resolve c x) := by
  intro s s' h
  simp only [EvalM.resolve, get_bind_run, ScopeTree.resolve, h.scopes, ScopeTree.find?_map]
  cases s.scopes.find? c x with
  | some v => exact .ok h
  | none => exact .error h

theorem declare (c : Chain) (x : String) (v : Value) :
    Matches φ (Value.mapBody φ) (EvalM.declare c x v) (EvalM.declare c x (v.mapBody φ)) := by
  intro s s' h
  have hb : (s'.scopes.scope c).binds x = (s.scopes.scope c).binds x := by
    rw [h.scopes, ScopeTree.scope_map, Scope.binds_map]
  rw [EvalM.declare_eq, EvalM.declare_eq, hb]
  by_cases hx : (s.scopes.scope c).binds x = true
  · simp only [hx, ite_true]; exact .error h
  · simp only [hx]
    refine .ok (a := Value.unit) ⟨?_, h.cells, h.closures, h.sink⟩
    simp only [h.scopes, ScopeTree.map_insert]

theorem openScope (c : Chain) (new : Scope Value) :
    Matches φ id (EvalM.openScope c new) (EvalM.openScope c (new.map (Value.mapBody φ))) := by
  intro s s' h
  simp only [EvalM.openScope, h.scopes, ScopeTree.map_grow]
  exact .ok ⟨rfl, h.cells, h.closures, h.sink⟩

theorem makeClosure (c : Chain) (x : String) (xTy : Ty) (ret : Option Ty) (body : Expr) :
    Matches φ (Value.mapBody φ) (EvalM.makeClosure c x xTy ret body)
      (EvalM.makeClosure c x xTy ret (φ body)) := by
  cases ret with
  | none => exact .throw _
  | some ret =>
    intro s s' h
    simp only [EvalM.makeClosure, h.closures]
    exact .ok (a := Value.closure ⟨s.closures, x, xTy, ret, body, c⟩) ⟨h.scopes, h.cells, rfl, h.sink⟩

theorem enter (f : Closure) (arg : Value) (d : Nat) :
    Matches φ id (EvalM.enter f arg d) (EvalM.enter (f.mapBody φ) (arg.mapBody φ) d) :=
  (emit _).bind fun _ => openScope _ ⟨[(f.param, arg)]⟩

theorem cellTyOf (ty : Option Ty) : Matches φ id (EvalM.cellTyOf ty) (EvalM.cellTyOf ty) := by
  cases ty with
  | none => exact .throw _
  | some ty => exact .pure ty

theorem allocate (ty : Ty) (v : Value) :
    Matches φ (Value.mapBody φ) (EvalM.allocate ty v) (EvalM.allocate ty (v.mapBody φ)) := by
  intro s s' h
  have hsize : s'.cells.size = s.cells.size := by rw [h.cells]; exact Array.size_map ..
  simp only [EvalM.allocate, hsize]
  refine .ok (a := Value.ref s.cells.size) ⟨h.scopes, ?_, h.closures, h.sink⟩
  simp [h.cells, Cells.mapBody, Cell.mapBody]

theorem read (i : Nat) : Matches φ (Value.mapBody φ) (EvalM.read i) (EvalM.read i) := by
  intro s s' h
  have hread : EvalM.read i s' = .ok ((s.cells.contents i).mapBody φ) s' := by
    rw [← Cells.contents_mapBody, ← h.cells]; rfl
  rw [hread]
  exact .ok h

theorem write (i : Nat) (v : Value) :
    Matches φ (Value.mapBody φ) (EvalM.write i v) (EvalM.write i (v.mapBody φ)) := by
  intro s s' h
  refine .ok (a := Value.ref i) ⟨h.scopes, ?_, h.closures, h.sink⟩
  simp only [h.cells, Cells.mapBody_write]

theorem print (v : Value) :
    Matches φ (Value.mapBody φ) (EvalM.print v) (EvalM.print (v.mapBody φ)) := by
  intro s s' h
  simp only [EvalM.print, h.cells, h.sink, Cells.text_mapBody]
  cases s.sink.fits (s.cells.text v ++ "\n").toUTF8.size with
  | true => exact .ok (a := Value.unit) ⟨h.scopes, rfl, h.closures, rfl⟩
  | false => exact .error ⟨h.scopes, rfl, h.closures, rfl⟩

theorem castTo (target : Ty) (v : Value) :
    Matches φ (Value.mapBody φ) (EvalM.castTo target v) (EvalM.castTo target (v.mapBody φ)) := by
  intro s s' h
  simp only [EvalM.castTo, get_bind_run, h.cells, Cells.typeOf_mapBody, Cells.text_mapBody]
  cases (s.cells.typeOf v).consistent target with
  | true => exact .ok h
  | false => exact .error ⟨h.scopes, h.cells, h.closures, h.sink⟩

end EvalM.Matches

end Gradual

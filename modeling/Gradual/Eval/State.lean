import Gradual.Eval.Sink
import Gradual.Eval.Value
import Gradual.Log
import Gradual.Ty.Consistency

/-!
# The state of a running program

`State` holds what a program can change: its scopes and cells, the sink and
the log. The steps that touch it stand here, one definition each; a step that
fails leaves behind what it did before.
-/

namespace Gradual

structure State where
  scopes : ScopeTree Value := {}
  cells : Cells := #[]
  /-- The number of closures made so far; the next one gets it as its identity. -/
  closures : Nat := 0
  sink : Sink := {}
  log : Log := #[]

abbrev EvalM := EStateM RuntimeError State

theorem get_bind_run {ε σ α : Type} (f : σ → EStateM ε σ α) (s : σ) : (get >>= f) s = f s s :=
  rfl

namespace EvalM

def emit (e : Event) : EvalM Unit :=
  modify fun s => { s with log := s.log.push e }

/-! ## Scopes -/

def resolve (scope : Chain) (x : String) : EvalM Value := do
  match (← get).scopes.resolve scope x with
  | .ok v => pure v
  | .error e => throw (.scope e)

def declare (scope : Chain) (x : String) (v : Value) : EvalM Value := fun s =>
  match s.scopes.declare scope x v with
  | .ok scopes => .ok .unit { s with scopes }
  | .error e => .error (.scope e) s

theorem declare_eq (scope : Chain) (x : String) (v : Value) (s : State) :
    declare scope x v s =
      if (s.scopes.scope scope).binds x then .error (.scope (.redeclared x)) s
      else .ok .unit { s with scopes := s.scopes.modify (·.insert x v) scope } := by
  unfold declare
  rw [ScopeTree.declare_eq]
  by_cases hx : (s.scopes.scope scope).binds x = true
  · simp only [hx, ite_true]
  · simp only [hx, Bool.false_eq_true, ite_false]

def openScope (scope : Chain) (new : Scope Value) : EvalM Chain := fun s =>
  let (scope, scopes) := s.scopes.grow scope new
  .ok scope { s with scopes }

/-! ## Values of a needed kind -/

def unexpected {α : Type} (expected : String) (v : Value) : EvalM α := do
  throw (.internal expected v.kind ((← get).cells.text v))

def asBool : Value → EvalM Bool
  | .bool b => pure b
  | v => unexpected "bool condition" v

def asInt : Value → EvalM Int64
  | .int n => pure n
  | v => unexpected "int operand" v

def asClosure : Value → EvalM Closure
  | .closure c => pure c
  | v => unexpected "closure" v

def asCell : Value → EvalM Nat
  | .ref i => pure i
  | v => unexpected "reference" v

/-! ## Operators -/

/-- Operators on integers wrap around at 64 bits; division goes toward zero. -/
def operateInt (op : BinOp) (a b : Int64) : EvalM Value :=
  match op with
  | .add => pure (.int (a + b))
  | .sub => pure (.int (a - b))
  | .mul => pure (.int (a * b))
  | .div => if b = 0 then throw .divisionByZero else pure (.int (a / b))
  | .mod => if b = 0 then throw .divisionByZero else pure (.int (a % b))
  | .gt => pure (.bool (decide (b < a)))
  | .ge => pure (.bool (decide (b ≤ a)))
  | .lt => pure (.bool (decide (a < b)))
  | .le => pure (.bool (decide (a ≤ b)))
  | .eq => pure (.bool (a == b))
  | .ne => pure (.bool (a != b))

def operate (op : BinOp) (a b : Value) : EvalM Value :=
  match op with
  | .eq => pure (.bool (a.same b))
  | .ne => pure (.bool (!a.same b))
  | op => do
    let a ← asInt a
    let b ← asInt b
    operateInt op a b

/-! ## Closures and cells -/

/-- A new closure in `scope`. A function whose result type was not filled in
is refused. -/
def makeClosure (scope : Chain) (param : String) (paramTy : Ty) (resultTy : Option Ty)
    (body : Expr) : EvalM Value :=
  match resultTy with
  | none => throw (.unchecked "function declaration")
  | some resultTy => fun s =>
    .ok (.closure ⟨s.closures, param, paramTy, resultTy, body, scope⟩)
      { s with closures := s.closures + 1 }

/-- Opens the scope for a call, in which the parameter is the only name. -/
def enter (c : Closure) (arg : Value) (depth : Nat) : EvalM Chain := do
  emit (.called c.param depth)
  openScope c.scope ⟨[(c.param, arg)]⟩

/-- The type of a cell to be made. An allocation whose cell type was not filled
in is refused. -/
def cellTyOf : Option Ty → EvalM Ty
  | some ty => pure ty
  | none => throw (.unchecked "reference allocation")

def allocate (ty : Ty) (v : Value) : EvalM Value := fun s =>
  .ok (.ref s.cells.size) { s with cells := s.cells.push ⟨ty, v⟩ }

def read (i : Nat) : EvalM Value := do
  return (← get).cells.contents i

/-- Stores into a cell; the value is the reference to it. -/
def write (i : Nat) (v : Value) : EvalM Value := fun s =>
  .ok (.ref i) { s with cells := s.cells.write i v }

/-! ## Printing and casts -/

def print (v : Value) : EvalM Value := fun s =>
  let bytes := (s.cells.text v ++ "\n").toUTF8
  let fits := s.sink.fits bytes.size
  let s := { s with sink := s.sink.write bytes }
  if fits then .ok .unit s else .error (.io Sink.fullReason) s

/-- A cast hands on a value whose own type is consistent with the target. -/
def castTo (target : Ty) (v : Value) : EvalM Value := do
  let cells := (← get).cells
  let actual := cells.typeOf v
  if actual.consistent target then
    return v
  else
    emit (.castFailed actual target)
    throw (.castFailed (cells.text v) actual target)

end EvalM

end Gradual

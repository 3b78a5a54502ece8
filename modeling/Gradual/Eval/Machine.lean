import Gradual.Eval.State

/-!
# The machine

Calls may nest as deep as the limit allows, which is deeper than a recursive
function can follow. So programs are run by a machine that keeps what remains
to be done in a stack of frames, and counts the calls that are running.
-/

namespace Gradual

open EvalM

/-- What is done with a value once it is known. -/
inductive Frame where
  | right (op : BinOp) (rhs : Expr) (scope : Chain)
  | operate (op : BinOp) (lhs : Value)
  | branch (thenBranch elseBranch : Expr) (scope : Chain)
  | argument (arg : Expr) (scope : Chain)
  | call (c : Closure)
  | seq (rest : List Expr) (scope : Chain)
  | declare (name : String) (scope : Chain)
  | assigned (value : Expr) (scope : Chain)
  | write (cell : Nat)
  | deref
  | allocate (ty : Ty)
  | print
  | cast (target : Ty)
  | leave

inductive Focus where
  | eval (e : Expr) (scope : Chain)
  /-- A value or an error goes to the topmost frame. -/
  | done (result : Except RuntimeError Value)

structure Machine where
  focus : Focus
  stack : List Frame
  depth : Nat
  state : State

structure Outcome where
  result : Except RuntimeError Value
  depth : Nat
  state : State

inductive Progress where
  | stopped (outcome : Outcome)
  | running (m : Machine)

namespace Machine

/-- Goes on with the result of an action: an error goes to the topmost frame. -/
def andThen {α : Type} (stack : List Frame) (depth : Nat)
    (r : EStateM.Result RuntimeError State α) (next : α → State → Machine) : Machine :=
  match r with
  | .ok a s => next a s
  | .error e s => ⟨.done (.error e), stack, depth, s⟩

def hand (stack : List Frame) (depth : Nat) (r : EStateM.Result RuntimeError State Value) :
    Machine :=
  andThen stack depth r fun v s => ⟨.done (.ok v), stack, depth, s⟩

def visit (scope : Chain) (stack : List Frame) (depth : Nat) (s : State) : Expr → Machine
  | .const c => ⟨.done (.ok (.ofConstant c)), stack, depth, s⟩
  | .var x => hand stack depth (resolve scope x s)
  | .binary op l r => ⟨.eval l scope, .right op r scope :: stack, depth, s⟩
  | .cond c t e => ⟨.eval c scope, .branch t e scope :: stack, depth, s⟩
  | .lam x xTy ret body => hand stack depth (makeClosure scope x xTy ret body s)
  | .app f a => ⟨.eval f scope, .argument a scope :: stack, depth, s⟩
  | .seq es => ⟨.done (.ok .unit), .seq es scope :: stack, depth, s⟩
  | .decl x _ v => ⟨.eval v scope, .declare x scope :: stack, depth, s⟩
  | .assign t v => ⟨.eval t scope, .assigned v scope :: stack, depth, s⟩
  | .deref t => ⟨.eval t scope, .deref :: stack, depth, s⟩
  | .alloc v ty =>
    andThen stack depth (cellTyOf ty s) fun ty s => ⟨.eval v scope, .allocate ty :: stack, depth, s⟩
  | .print v => ⟨.eval v scope, .print :: stack, depth, s⟩
  | .cast ty e => ⟨.eval e scope, .cast ty :: stack, depth, s⟩

def resume (limit : Nat) (v : Value) (stack : List Frame) (depth : Nat) (s : State) :
    Frame → Machine
  | .right op r scope => ⟨.eval r scope, .operate op v :: stack, depth, s⟩
  | .operate op a => hand stack depth (EvalM.operate op a v s)
  | .branch t e scope =>
    andThen stack depth (asBool v s) fun b s =>
    andThen stack depth (openScope scope {} s) fun inner s =>
      ⟨.eval (if b then t else e) inner, stack, depth, s⟩
  | .argument a scope =>
    andThen stack depth (asClosure v s) fun c s => ⟨.eval a scope, .call c :: stack, depth, s⟩
  | .call c =>
    if depth < limit then
      andThen stack depth (enter c v depth s) fun scope s =>
        ⟨.eval c.body scope, .leave :: stack, depth + 1, s⟩
    else
      ⟨.done (.error (.stackOverflow limit)), stack, depth, s⟩
  | .seq [] _ => ⟨.done (.ok v), stack, depth, s⟩
  | .seq (e :: es) scope => ⟨.eval e scope, .seq es scope :: stack, depth, s⟩
  | .declare x scope => hand stack depth (EvalM.declare scope x v s)
  | .assigned e scope =>
    andThen stack depth (asCell v s) fun i s => ⟨.eval e scope, .write i :: stack, depth, s⟩
  | .write i => hand stack depth (EvalM.write i v s)
  | .deref => andThen stack depth (asCell v s) fun i s => hand stack depth (read i s)
  | .allocate ty => hand stack depth (EvalM.allocate ty v s)
  | .print => hand stack depth (EvalM.print v s)
  | .cast ty => hand stack depth (castTo ty v s)
  | .leave => ⟨.done (.ok v), stack, depth - 1, s⟩

def unwind (e : RuntimeError) (stack : List Frame) (depth : Nat) (s : State) : Frame → Machine
  | .leave => ⟨.done (.error e), stack, depth - 1, s⟩
  | _ => ⟨.done (.error e), stack, depth, s⟩

/-- One step. A machine stops when a value or an error is there and no frame
waits for it. -/
def step (limit : Nat) : Machine → Progress
  | ⟨.eval e scope, stack, depth, s⟩ => .running (visit scope stack depth s e)
  | ⟨.done r, [], depth, s⟩ => .stopped ⟨r, depth, s⟩
  | ⟨.done (.ok v), f :: stack, depth, s⟩ => .running (resume limit v stack depth s f)
  | ⟨.done (.error e), f :: stack, depth, s⟩ => .running (unwind e stack depth s f)

end Machine

end Gradual

import Gradual.Eval.State

/-!
# The meaning of a tree

`Expr.eval` is the value of a tree and its effect on the state, by recursion
on the tree. Calls are the one place where evaluation leaves the tree; they
are limited in depth, so recursion on the calls that are left makes evaluation
total.
-/

namespace Gradual

open EvalM

abbrev Call := Closure → Value → EvalM Value

mutual

/-- The meaning of a tree in `scope`, given the meaning of calls. -/
def Expr.evalWith (call : Call) (scope : Chain) : Expr → EvalM Value
  | .const c => pure (.ofConstant c)
  | .var x => resolve scope x
  | .binary op l r => do
    let a ← l.evalWith call scope
    let b ← r.evalWith call scope
    operate op a b
  | .cond c t e => do
    let v ← c.evalWith call scope
    let b ← asBool v
    let inner ← openScope scope {}
    if b then t.evalWith call inner else e.evalWith call inner
  | .lam x xTy ret body => makeClosure scope x xTy ret body
  | .app f a => do
    let v ← f.evalWith call scope
    let c ← asClosure v
    let arg ← a.evalWith call scope
    call c arg
  | .seq es => Expr.evalSeqWith call scope .unit es
  | .decl x _ v => do
    let v ← v.evalWith call scope
    declare scope x v
  | .assign t v => do
    let target ← t.evalWith call scope
    let i ← asCell target
    let v ← v.evalWith call scope
    write i v
  | .deref t => do
    let target ← t.evalWith call scope
    let i ← asCell target
    read i
  | .alloc v ty => do
    let ty ← cellTyOf ty
    let v ← v.evalWith call scope
    allocate ty v
  | .print v => do
    let v ← v.evalWith call scope
    EvalM.print v
  | .cast ty e => do
    let v ← e.evalWith call scope
    castTo ty v

/-- The value of the last item of a sequence, or `last` if there is none. -/
def Expr.evalSeqWith (call : Call) (scope : Chain) (last : Value) : List Expr → EvalM Value
  | [] => pure last
  | e :: es => do
    let v ← e.evalWith call scope
    Expr.evalSeqWith call scope v es

end

/-- A call when `left` more calls may be nested, out of `limit`. -/
def Closure.call (limit : Nat) : Nat → Call
  | 0 => fun _ _ => throw (.stackOverflow limit)
  | left + 1 => fun c arg => do
    let scope ← enter c arg (limit - (left + 1))
    c.body.evalWith (Closure.call limit left) scope

/-- The meaning of a tree in `scope` while `depth` calls are running. -/
def Expr.eval (limit depth : Nat) (scope : Chain) (e : Expr) : EvalM Value :=
  e.evalWith (Closure.call limit (limit - depth)) scope

end Gradual

import Gradual.Json.Decode

/-!
# Trees in postfix form

A tree may be given as a list of steps on a stack of trees: each step takes
its operands from the top of the stack and puts one tree in their place. The
operands are taken before the step's own arguments are read, so a step whose
arguments cannot be read has used up its operands.
-/

namespace Gradual.Postfix

inductive Fault where
  | unknownStep
  | unreadable
  | underflow
deriving DecidableEq

/-- Trees, the last one first. -/
abbrev Stack := List Expr

abbrev BuildM := EStateM Fault Stack

def push (e : Expr) : BuildM Unit :=
  modify (e :: ·)

/-- Takes the last `n` trees, in the order in which they were put there. -/
def take (n : Nat) : BuildM (List Expr) := do
  let stack ← get
  if stack.length < n then
    throw .underflow
  else
    set (stack.drop n)
    return (stack.take n).reverse

def take1 : BuildM Expr := do
  match ← get with
  | e :: rest => set rest; return e
  | _ => throw .underflow

def take2 : BuildM (Expr × Expr) := do
  match ← get with
  | b :: a :: rest => set rest; return (a, b)
  | _ => throw .underflow

def take3 : BuildM (Expr × Expr × Expr) := do
  match ← get with
  | c :: b :: a :: rest => set rest; return (a, b, c)
  | _ => throw .underflow

def readable {α : Type} : Option α → BuildM α
  | some a => pure a
  | none => throw .unreadable

/-- The step `name` with its arguments; a missing argument counts as `null`. -/
def perform (name : String) (arg : Nat → Json) : BuildM Unit :=
  match name with
  | "int" => do push (.const (.int (← readable (arg 0).int64?)))
  | "bool" => do push (.const (.bool (← readable (arg 0).bool?)))
  | "str" => do push (.const (.str (← readable (arg 0).str?)))
  | "unit" => push (.const .unit)
  | "var" => do push (.var (← readable (arg 0).str?))
  | "func" => do
    let body ← take1
    let x ← readable (arg 0).str?
    let xTy ← readable (Ty.ofJson? (arg 1))
    let ret ← readable (Expr.optionalTy? (arg 2))
    push (.lam x xTy ret body)
  | "let" => do
    let v ← take1
    let x ← readable (arg 0).str?
    let ty ← readable (Expr.optionalTy? (arg 1))
    push (.decl x ty v)
  | "deref" => do push (.deref (← take1))
  | "ref" => do push (.alloc (← take1) none)
  | "print" => do push (.print (← take1))
  | "cast" => do
    let e ← take1
    push (.cast (← readable (Ty.ofJson? (arg 0))) e)
  | "binop" => do
    let (l, r) ← take2
    push (.binary (← readable (BinOp.ofJson? (arg 0))) l r)
  | "app" => do
    let (f, a) ← take2
    push (.app f a)
  | "assign" => do
    let (t, v) ← take2
    push (.assign t v)
  | "if" => do
    let (c, t, e) ← take3
    push (.cond c t e)
  | "seq" => do
    let n ← readable (arg 0).nat?
    push (.seq (← take n))
  | _ => throw .unknownStep

/-- A step is an array of its name and its arguments. -/
def step : Json → BuildM Unit
  | .arr (.str name :: args) => perform name fun i => args.getD i .null
  | _ => throw .unknownStep

/-- The tree on top of the stack after all steps. -/
def build (steps : List Json) : Except Fault Expr :=
  match (steps.forM step).run [] with
  | .ok _ (e :: _) => .ok e
  | .ok _ [] => .error .underflow
  | .error fault _ => .error fault

end Gradual.Postfix

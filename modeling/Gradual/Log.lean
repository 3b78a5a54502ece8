import Gradual.Eval.Error

/-!
# The log

Checking and running a tree leave events behind, in the order in which they
happened, whether they succeed or fail.
-/

namespace Gradual

inductive CastRule where
  | operand
  | condition
  | thenBranch
  | elseBranch
  | body
  | callee
  | argument
  | declaration
  | assignTarget
  | assignValue
  | deref
deriving DecidableEq

def CastRule.label : CastRule → String
  | .operand => "CBinOp"
  | .condition => "CIf1"
  | .thenBranch => "CIf2"
  | .elseBranch => "CIf3"
  | .body => "CFun"
  | .callee => "CApp1"
  | .argument => "CApp2"
  | .declaration => "CLet"
  | .assignTarget => "CAssign1"
  | .assignValue => "CAssign2"
  | .deref => "CDeref1"

inductive Event where
  | castInserted (rule : CastRule) (target : Ty)
  | checked (ty : Ty) (casts : Nat)
  /-- A closure is called; `depth` calls are running already. -/
  | called (param : String) (depth : Nat)
  | castFailed (actual target : Ty)
  | evaluationFailed (error : RuntimeError)
deriving DecidableEq

abbrev Log := Array Event

inductive Level where
  | debug
  | trace
deriving DecidableEq

namespace Event

def level : Event → Level
  | .called _ _ => .trace
  | _ => .debug

def isKeptAt (e : Event) (level : Level) : Bool :=
  e.level == .debug || level == .trace

def message : Event → String
  | .castInserted _ _ => "inserting cast"
  | .checked _ _ => "typecheck complete"
  | .called _ _ => "calling closure"
  | .castFailed _ _ => "cast failed"
  | .evaluationFailed _ => "evaluation failed"

def details : Event → List (String × String)
  | .castInserted rule target => [("rule", rule.label), ("target", target.text)]
  | .checked ty casts => [("ty", ty.text), ("casts", toString casts)]
  | .called param depth => [("param", param), ("depth", toString depth)]
  | .castFailed actual target => [("actual", actual.text), ("target", target.text)]
  | .evaluationFailed e => [("kind", e.kind), ("fatal", toString e.isInternal)]

end Event

/-- Which activity an event belongs to: checking or running a whole program. -/
inductive Span where
  | check
  | run
deriving DecidableEq

structure LogEntry where
  span : Option Span
  event : Event
deriving DecidableEq

end Gradual

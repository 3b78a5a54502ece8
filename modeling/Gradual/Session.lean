import Gradual.Eval.Interpreter
import Gradual.Typing.Check

/-!
# Sessions

A session checks and runs trees one after another, with one typing context and
one interpreter. Both have a current scope, which is the global one unless
scopes were pushed. A tree in the global scope is a whole program: the log
says so, and says how checking and running it ended.
-/

namespace Gradual

def Expr.checkProgram (e : Expr) : CheckM (Ty × Expr) := do
  let (ty, e) ← e.check
  CheckM.emit (.checked ty e.casts)
  return (ty, e)

structure Session where
  context : Context := {}
  interpreter : Interpreter := {}
  scope : Chain := []
  log : Array LogEntry := #[]

namespace Session

def printingTo (sink : Sink) : Session :=
  { interpreter := { state := { sink } } }

def isGlobal (s : Session) : Bool :=
  s.scope.isEmpty

def record (s : Session) (span : Span) (events : Log) : Session :=
  let span := if s.isGlobal then some span else none
  { s with log := s.log ++ events.map (⟨span, ·⟩) }

/-- Moves the events of the interpreter to the session's log. -/
def drain (s : Session) : Session :=
  let events := s.interpreter.state.log
  let state := { s.interpreter.state with log := #[] }
  { s with interpreter := { s.interpreter with state } }.record .run events

def check (s : Session) (e : Expr) : Except TypeError (Ty × Expr) × Session :=
  let m := if s.isGlobal then e.checkProgram else e.check
  match m.run { context := s.context } with
  | .ok checked state => (.ok checked, { s with context := state.context }.record .check state.log)
  | .error err state => (.error err, { s with context := state.context }.record .check state.log)

/-- Evaluates a tree in the current scope as it is, checked or not. -/
def eval (s : Session) (e : Expr) : Except RuntimeError Value × Session :=
  let (r, interpreter) :=
    if s.isGlobal then s.interpreter.run e else s.interpreter.evaluate e s.scope
  (r, { s with interpreter }.drain)

/-- Declares the type of a host name in the global scope. -/
def declare (s : Session) (x : String) (ty : Ty) : Except TypeError Session :=
  match s.context.declareGlobal x ty with
  | .ok context => .ok { s with context }
  | .error e => .error (.scope e)

/-- Defines the value of a host name in the global scope. -/
def define (s : Session) (x : String) (v : Value) : Except RuntimeError Session := do
  return { s with interpreter := ← s.interpreter.define x v }

def push (s : Session) : Session :=
  let state := s.interpreter.state
  let (scope, scopes) := state.scopes.grow s.scope {}
  { s with
    context := s.context.push
    interpreter := { s.interpreter with state := { state with scopes } }
    scope }

/-- Leaves the current scope; the global scope stays. -/
def pop (s : Session) : Session :=
  { s with context := s.context.pop, scope := s.scope.tail }

def limitCalls (s : Session) (maxCallDepth : Nat) : Session :=
  { s with interpreter.config.maxCallDepth := maxCallDepth }

end Session

end Gradual

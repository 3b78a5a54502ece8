import Gradual.Eval.Run

/-!
# The interpreter

An interpreter lives through many programs: its scopes, cells and sink go from
one to the next, also when a program fails.
-/

namespace Gradual

structure Config where
  maxCallDepth : Nat := 100000
  stackRedZone : Nat := 128 * 1024
  stackGrowSize : Nat := 4 * 1024 * 1024
deriving DecidableEq

structure Interpreter where
  config : Config := {}
  callDepth : Nat := 0
  state : State := {}

/-- The state once a program has ended, with a failure noted in the log. -/
def State.noting (s : State) : Except RuntimeError Value → State
  | .ok _ => s
  | .error err => { s with log := s.log.push (.evaluationFailed err) }

namespace Interpreter

def fresh (config : Config) (sink : Sink) : Interpreter :=
  { config, state := { sink } }

def evaluate (i : Interpreter) (e : Expr) (scope : Chain) :
    Except RuntimeError Value × Interpreter :=
  match i with
  | ⟨config, callDepth, state⟩ =>
    let o := Machine.run config.maxCallDepth ⟨.eval e scope, [], callDepth, state⟩
    (o.result, ⟨config, o.depth, o.state⟩)

def emit (i : Interpreter) (e : Event) : Interpreter :=
  { i with state := { i.state with log := i.state.log.push e } }

def run (i : Interpreter) (e : Expr) : Except RuntimeError Value × Interpreter :=
  match i.evaluate e [] with
  | (.ok v, i) => (.ok v, i)
  | (.error err, i) => (.error err, i.emit (.evaluationFailed err))

def define (i : Interpreter) (x : String) (v : Value) : Except RuntimeError Interpreter :=
  match i.state.scopes.declare [] x v with
  | .ok scopes => .ok { i with state := { i.state with scopes } }
  | .error e => .error (.scope e)

/-- What `evaluate` gives is the meaning of the tree, and the number of running
calls is what it was. -/
theorem evaluate_eq (i : Interpreter) (e : Expr) (scope : Chain) :
    i.evaluate e scope =
      match e.eval i.config.maxCallDepth i.callDepth scope i.state with
      | .ok v s => (.ok v, { i with state := s })
      | .error err s => (.error err, { i with state := s }) := by
  obtain ⟨config, callDepth, state⟩ := i
  simp only [evaluate, Machine.run_eval]
  cases e.eval config.maxCallDepth callDepth scope state <;> rfl

theorem run_outcome {i : Interpreter} {e : Expr} {o : Outcome}
    (h : Machine.run i.config.maxCallDepth ⟨.eval e [], [], i.callDepth, i.state⟩ = o) :
    (i.run e).1 = o.result ∧ (i.run e).2.state = o.state.noting o.result := by
  obtain ⟨config, callDepth, state⟩ := i
  have he : evaluate ⟨config, callDepth, state⟩ e [] = (o.result, ⟨config, o.depth, o.state⟩) := by
    rw [← h]; rfl
  rw [run, he]
  cases o.result <;> exact ⟨rfl, rfl⟩

/-- A run ends as the machine does, but for what it logs of a failure. -/
theorem run_machine {i : Interpreter} {e : Expr} {o : Outcome}
    (h : Machine.run i.config.maxCallDepth ⟨.eval e [], [], i.callDepth, i.state⟩ = o) :
    (i.run e).1 = o.result ∧ ∃ log, (i.run e).2.state = { o.state with log } := by
  obtain ⟨hresult, hstate⟩ := run_outcome h
  refine ⟨hresult, ?_⟩
  rw [hstate]
  cases o.result with
  | ok v => exact ⟨o.state.log, rfl⟩
  | error err => exact ⟨_, rfl⟩

end Interpreter

end Gradual

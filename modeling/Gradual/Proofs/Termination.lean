import Gradual.Eval.Interpreter

/-!
# Every evaluation ends

A closure may reach itself through a cell or through the scope it was made in,
so nothing in the tree bounds a run. The limit on nested calls does: a machine
that is given steps to spend stops for every tree and every state once it has
enough of them, and from then on further steps change nothing
(`Interpreter.evaluate_finishes`).
-/

namespace Gradual

namespace Machine

def runWithin (limit : Nat) : Nat → Machine → Option Outcome
  | 0, _ => none
  | fuel + 1, m =>
    match step limit m with
    | .running m' => runWithin limit fuel m'
    | .stopped outcome => some outcome

theorem runWithin_stopped {limit : Nat} {m : Machine} {o : Outcome} (h : step limit m = .stopped o)
    (fuel : Nat) :
    runWithin limit fuel m = if 1 ≤ fuel then some o else none := by
  cases fuel with
  | zero => rfl
  | succ fuel => simp [runWithin, h]

theorem runWithin_running {limit : Nat} {m m' : Machine} (h : step limit m = .running m') (fuel : Nat) :
    runWithin limit (fuel + 1) m = runWithin limit fuel m' := by
  simp only [runWithin, h]

theorem run_of_stopped {limit : Nat} {m : Machine} {o : Outcome} (h : step limit m = .stopped o) :
    run limit m = o := by
  obtain ⟨focus, K, d, s⟩ := m
  cases focus with
  | eval e scope => cases h
  | done r =>
    cases K with
    | nil =>
      rw [run_done]
      cases r <;> cases h <;> rfl
    | cons f K => cases r <;> cases h

theorem exists_steps (limit : Nat) (m : Machine) :
    ∃ steps, ∀ fuel, runWithin limit fuel m = if steps ≤ fuel then some (run limit m) else none := by
  -- The induction is on the run itself: each step adds one to what the rest takes.
  have hm : Halts limit m := halts m
  induction hm with
  | intro m _ ih =>
    cases hs : step limit m with
    | stopped o =>
      refine ⟨1, fun fuel => ?_⟩
      rw [runWithin_stopped hs, run_of_stopped hs]
    | running m' =>
      obtain ⟨steps, hsteps⟩ := ih m' hs
      refine ⟨steps + 1, fun fuel => ?_⟩
      rw [run_of_step hs]
      cases fuel with
      | zero => simp [runWithin]
      | succ fuel => rw [runWithin_running hs, hsteps]; simp

end Machine

namespace Interpreter

/-- `evaluate` with a bound on the steps in place of the proof that it ends. -/
def evaluateWithin (fuel : Nat) (i : Interpreter) (e : Expr) (scope : Chain) :
    Option (Except RuntimeError Value × Interpreter) :=
  (Machine.runWithin i.config.maxCallDepth fuel ⟨.eval e scope, [], i.callDepth, i.state⟩).map
    fun o => (o.result, { i with callDepth := o.depth, state := o.state })

/-- Each tree takes some number of steps in each state: with fewer there is no
outcome yet, and with that many or more there is always the same one. -/
theorem evaluate_finishes (i : Interpreter) (e : Expr) (scope : Chain) :
    ∃ steps, ∀ fuel,
      i.evaluateWithin fuel e scope = if steps ≤ fuel then some (i.evaluate e scope) else none := by
  obtain ⟨config, callDepth, state⟩ := i
  obtain ⟨steps, h⟩ := Machine.exists_steps config.maxCallDepth ⟨.eval e scope, [], callDepth, state⟩
  refine ⟨steps, fun fuel => ?_⟩
  simp only [evaluateWithin, h fuel]
  by_cases hf : steps ≤ fuel
  · simp only [hf, ite_true]; rfl
  · simp only [hf, ite_false]; rfl

def callThroughCell : Expr :=
  .seq [
    .decl "c" none (.alloc (.lam "x" .int (some .int) (.var "x")) (some (.fn .int .int))),
    .assign (.var "c") (.lam "x" .int (some .int) (.app (.deref (.var "c")) (.var "x"))),
    .app (.deref (.var "c")) (.const (.int 0))]

example : (evaluateWithin 100 (fresh { maxCallDepth := 3 } {}) callThroughCell []).map (·.1) =
    some (.error (.stackOverflow 3)) := rfl

end Interpreter

end Gradual

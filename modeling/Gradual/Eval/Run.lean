import Gradual.Eval.Bridge

/-!
# Running a machine

`Machine.run` steps a machine until it stops. `Machine.run_eval`: what comes
out is the meaning of the tree, and as many calls are running as before.
-/

namespace Gradual.Machine

structure Timed (limit : Nat) where
  machine : Machine

instance (limit : Nat) : WellFoundedRelation (Timed limit) where
  rel m' m := step limit m.machine = .running m'.machine
  wf := InvImage.wf Timed.machine ⟨fun m => halts m⟩

def run (limit : Nat) (m : Machine) : Outcome :=
  match _h : step limit m with
  | .running m' => run limit m'
  | .stopped outcome => outcome
termination_by (⟨m⟩ : Timed limit)
decreasing_by exact _h

theorem run_of_step {limit : Nat} {m m' : Machine} (h : step limit m = .running m') :
    run limit m = run limit m' := by
  rw [run]
  split
  · rename_i hs
    rw [h] at hs
    cases hs
    rfl
  · rename_i hs
    rw [h] at hs
    cases hs

theorem run_of_reaches {limit : Nat} {m m' : Machine} (r : Reaches limit m m') :
    run limit m = run limit m' := by
  induction r with
  | refl => rfl
  | head h _ ih => rw [run_of_step h, ih]

theorem run_done (limit : Nat) (r : Except RuntimeError Value) (d : Nat) (s : State) :
    run limit ⟨.done r, [], d, s⟩ = ⟨r, d, s⟩ := by
  rw [run]
  split
  · rename_i hs
    cases r <;> cases hs
  · rename_i hs
    cases r <;> cases hs <;> rfl

theorem reaches_run (limit : Nat) (m : Machine) :
    Reaches limit m ⟨.done (run limit m).result, [], (run limit m).depth, (run limit m).state⟩ := by
  have hm : Halts limit m := halts m
  induction hm with
  | intro m _ ih =>
    cases hs : step limit m with
    | running m' =>
      rw [run_of_step hs]
      exact .head hs (ih m' hs)
    | stopped o =>
      obtain ⟨focus, K, d, s⟩ := m
      cases focus with
      | eval e scope => cases hs
      | done r =>
        cases K with
        | nil => rw [run_done]; exact .refl _
        | cons f K => cases r <;> cases hs

theorem run_eval (limit : Nat) (e : Expr) (scope : Chain) (d : Nat) (s : State) :
    run limit ⟨.eval e scope, [], d, s⟩ =
      match e.eval limit d scope s with
      | .ok v s => ⟨.ok v, d, s⟩
      | .error err s => ⟨.error err, d, s⟩ := by
  rw [run_of_reaches (eval_reaches e scope [] d s)]
  cases e.eval limit d scope s <;> exact run_done limit _ d _

end Gradual.Machine

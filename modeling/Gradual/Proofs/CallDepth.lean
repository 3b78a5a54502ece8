import Gradual.Eval.Interpreter
import Gradual.Proofs.Growth

/-!
# The number of running calls

The machine counts calls up when one begins and down when it ends, also when
it ends with an error. The frames that wait for the end of a call are the calls
that are running, so the counter is always ahead of where it started by just
their number (`Machine.Balanced`), and it is back once none waits any more.
-/

namespace Gradual

namespace Machine

/-! ## The counter and the frames -/

def openCalls : List Frame → Nat
  | [] => 0
  | .leave :: K => openCalls K + 1
  | _ :: K => openCalls K

/-- From `low` on, the calls that are running were counted, and no more than the
limit allows. -/
structure Balanced (limit low : Nat) (m : Machine) : Prop where
  depth : m.depth = low + openCalls m.stack
  le : m.depth ≤ limit

variable {limit low d : Nat} {K : List Frame}

theorem balanced_andThen {α : Type} {next : α → State → Machine} (hK : d = low + openCalls K) (hd : d ≤ limit)
    (r : EStateM.Result RuntimeError State α) (hnext : ∀ a s, Balanced limit low (next a s)) :
    Balanced limit low (andThen K d r next) := by
  cases r with
  | ok a s => exact hnext a s
  | error err s => exact ⟨hK, hd⟩

theorem balanced_hand (hK : d = low + openCalls K) (hd : d ≤ limit)
    (r : EStateM.Result RuntimeError State Value) :
    Balanced limit low (hand K d r) :=
  balanced_andThen hK hd r fun _ _ => ⟨hK, hd⟩

theorem balanced_visit (hK : d = low + openCalls K) (hd : d ≤ limit) (c : Chain) (s : State) (e : Expr) :
    Balanced limit low (visit c K d s e) := by
  cases e with
  | var x => exact balanced_hand hK hd _
  | lam x xTy ret body => exact balanced_hand hK hd _
  | alloc v ty => exact balanced_andThen hK hd _ fun _ _ => ⟨hK, hd⟩
  | _ => exact ⟨hK, hd⟩

theorem openCalls_cons {f : Frame} (hf : f ≠ .leave) (K : List Frame) : openCalls (f :: K) = openCalls K := by
  cases f with
  | leave => exact absurd rfl hf
  | _ => rfl

theorem balanced_resume {f : Frame} (hf : f ≠ .leave) (hK : d = low + openCalls K) (hd : d ≤ limit) (v : Value)
    (s : State) : Balanced limit low (resume limit v K d s f) := by
  cases f with
  | call g =>
    unfold resume
    by_cases hlt : d < limit
    · simp only [hlt, ite_true]
      refine balanced_andThen hK hd _ fun scope s => ⟨?_, hlt⟩
      simp only [openCalls]
      omega
    · simp only [hlt, ite_false]
      exact ⟨hK, hd⟩
  | branch t e c =>
    refine balanced_andThen hK hd _ fun b s => ?_
    exact balanced_andThen hK hd _ fun _ _ => ⟨hK, hd⟩
  | argument a c => exact balanced_andThen hK hd _ fun _ _ => ⟨hK, hd⟩
  | assigned e c => exact balanced_andThen hK hd _ fun _ _ => ⟨hK, hd⟩
  | deref => exact balanced_andThen hK hd _ fun _ _ => balanced_hand hK hd _
  | seq es c => cases es <;> exact ⟨hK, hd⟩
  | right op r c => exact ⟨hK, hd⟩
  | leave => exact absurd rfl hf
  | _ => exact balanced_hand hK hd _

/-- A call that ends was counted, so the counter does not go below where it
started. -/
theorem balanced_leave (hK : d = low + openCalls (.leave :: K)) (hd : d ≤ limit) (focus : Focus) (s : State) :
    Balanced limit low ⟨focus, K, d - 1, s⟩ := by
  simp only [openCalls] at hK
  refine ⟨?_, ?_⟩
  · show d - 1 = low + openCalls K
    omega
  · show d - 1 ≤ limit
    omega

theorem Balanced.step {m m' : Machine} (h : Balanced limit low m) (hs : step limit m = .running m') :
    Balanced limit low m' := by
  obtain ⟨focus, K, d, s⟩ := m
  obtain ⟨hK, hd⟩ := h
  cases focus with
  | eval e c => cases hs; exact balanced_visit hK hd c s e
  | done r =>
    cases K with
    | nil => cases r <;> cases hs
    | cons f K =>
      by_cases hf : f = .leave
      · subst hf
        cases r <;> cases hs <;> exact balanced_leave hK hd _ s
      · rw [openCalls_cons hf] at hK
        cases r with
        | ok v => cases hs; exact balanced_resume hf hK hd v s
        | error err =>
          rw [step_error hf] at hs
          cases hs
          exact ⟨hK, hd⟩

theorem Balanced.reaches {m n : Machine} (h : Balanced limit low m) (hr : Reaches limit m n) :
    Balanced limit low n := by
  induction hr with
  | refl => exact h
  | head hs _ ih => exact ih (h.step hs)

theorem Balanced.low_le {m : Machine} (h : Balanced limit low m) : low ≤ m.depth := by
  rw [h.depth]
  omega

end Machine

/-! ## Calls in the log -/

/-- The log has gained events, and the calls among them began at depths from `low`
on and below the limit. -/
def State.CallsWithin (low limit : Nat) (s s' : State) : Prop :=
  ∃ new : Log, s'.log = s.log ++ new ∧ ∀ param depth, .called param depth ∈ new → low ≤ depth ∧ depth < limit

namespace State.CallsWithin

variable {low limit : Nat} {s s' s'' : State}

theorem of_log (h : s'.log = s.log) : s.CallsWithin low limit s' :=
  ⟨#[], by rw [h, Array.append_empty], by simp⟩

theorem trans (h : s.CallsWithin low limit s') (h' : s'.CallsWithin low limit s'') :
    s.CallsWithin low limit s'' := by
  obtain ⟨new, hnew, hcalls⟩ := h
  obtain ⟨more, hmore, hcalls'⟩ := h'
  refine ⟨new ++ more, by rw [hmore, hnew, Array.append_assoc], fun param depth hmem => ?_⟩
  obtain hmem | hmem := Array.mem_append.mp hmem
  · exact hcalls param depth hmem
  · exact hcalls' param depth hmem

theorem of_moves (h : Relation.ReflTransGen (CallsWithin low limit) s s') : s.CallsWithin low limit s' := by
  induction h with
  | refl => exact of_log rfl
  | tail _ hmove ih => exact ih.trans hmove

end State.CallsWithin

namespace Machine

variable {limit low : Nat}

theorem actions_callsWithin (low limit : Nat) :
    Actions (State.CallsWithin low limit) fun d => low ≤ d ∧ d < limit where
  declare c x v s := by
    refine .single (.of_log ?_)
    unfold EvalM.declare
    split <;> rfl
  openScope c new s := .single (.of_log rfl)
  makeClosure c x xTy ret body s := by
    cases ret with
    | none => exact .refl
    | some ret => exact .single (.of_log rfl)
  enter f arg d hd := by
    refine Moving.bind (fun s => .single ⟨#[.called f.param d], rfl, ?_⟩) fun _ s => .single (.of_log rfl)
    intro param depth hmem
    simp only [List.mem_toArray, List.mem_singleton, Event.called.injEq] at hmem
    rw [hmem.2]
    exact hd
  allocate ty v s := .single (.of_log rfl)
  write i v s := .single (.of_log rfl)
  print v s := by
    refine .single (.of_log ?_)
    simp only [EvalM.print]
    split <;> rfl
  castTo target v s := by
    simp only [EvalM.castTo, get_bind_run]
    cases (s.cells.typeOf v).consistent target with
    | true => exact .refl
    | false => exact .single ⟨#[.castFailed _ _], rfl, by simp⟩

theorem Reaches.callsWithin {m n : Machine} (hr : Reaches limit m n) (h : Balanced limit low m) :
    m.state.CallsWithin low limit n.state := by
  induction hr with
  | refl m => exact .of_log rfl
  | head hs _ ih =>
    have hmoves := (actions_callsWithin low limit).step hs fun hlt => ⟨h.low_le, hlt⟩
    exact (State.CallsWithin.of_moves hmoves).trans (ih (h.step hs))

end Machine

namespace Interpreter

theorem run_callDepth (i : Interpreter) (e : Expr) :
    (i.run e).2.callDepth = i.callDepth ∧ (i.run e).2.config = i.config := by
  rw [run, evaluate_eq]
  cases e.eval i.config.maxCallDepth i.callDepth [] i.state <;> exact ⟨rfl, rfl⟩

/-- However an evaluation ends, as many calls are running as before it. On the way
there are never fewer, and never more than the limit, and each call that the log
reports began below the limit. So the next program may nest its calls as deep as
this one. -/
theorem evaluate_call_depth (i : Interpreter) (hd : i.callDepth ≤ i.config.maxCallDepth) (e : Expr)
    (scope : Chain) :
    let limit := i.config.maxCallDepth
    let out := i.evaluate e scope
    out.2.callDepth = i.callDepth ∧
    (∀ m, Machine.Reaches limit ⟨.eval e scope, [], i.callDepth, i.state⟩ m →
      i.callDepth ≤ m.depth ∧ m.depth ≤ limit) ∧
    (∃ new : Log, out.2.state.log = i.state.log ++ new ∧
      ∀ param depth, .called param depth ∈ new → i.callDepth ≤ depth ∧ depth < limit) ∧
    (i.run e).2.callDepth = i.callDepth ∧ (i.run e).2.config = i.config := by
  intro limit out
  let start : Machine := ⟨.eval e scope, [], i.callDepth, i.state⟩
  have hstart : Machine.Balanced limit i.callDepth start := ⟨rfl, hd⟩
  have hend := Machine.reaches_run limit start
  refine ⟨?_, fun m hm => ?_, ?_, i.run_callDepth e⟩
  · -- No frame is left at the end.
    exact (hstart.reaches hend).depth
  · have hm := hstart.reaches hm
    exact ⟨hm.low_le, hm.le⟩
  · exact hend.callsWithin hstart

def endless : Expr :=
  .seq [
    .decl "f" none (.lam "x" .int (some .int) (.app (.var "f") (.var "x"))),
    .app (.var "f") (.const (.int 0))]

theorem evaluate_call_depth_endless :
    let i := fresh { maxCallDepth := 3 } {}
    let out := i.evaluate endless []
    let failure : Option RuntimeError :=
      match out.1 with
      | .ok _ => none
      | .error err => some err
    i.callDepth ≤ i.config.maxCallDepth ∧ failure = some (.stackOverflow 3) ∧
      out.2.state.log = #[.called "x" 0, .called "x" 1, .called "x" 2] ∧ out.2.callDepth = 0 ∧
      (∃ new : Log, out.2.state.log = #[] ++ new ∧
        ∀ param depth, .called param depth ∈ new → 0 ≤ depth ∧ depth < 3) ∧
      (i.run endless).2.callDepth = 0 := by
  intro i out failure
  have hd : i.callDepth ≤ i.config.maxCallDepth := by decide
  have hfailure : failure = some (.stackOverflow 3) := by
    simp only [failure, out]
    rw [evaluate_eq]
    decide +kernel
  have hlog : out.2.state.log = #[.called "x" 0, .called "x" 1, .called "x" 2] := by
    simp only [out]
    rw [evaluate_eq]
    decide +kernel
  obtain ⟨hdepth, -, hcalls, hrun, -⟩ := evaluate_call_depth i hd endless []
  exact ⟨hd, hfailure, hlog, hdepth, hcalls, hrun⟩

end Interpreter

end Gradual

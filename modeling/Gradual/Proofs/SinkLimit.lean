import Gradual.Eval.Interpreter
import Gradual.Proofs.Growth

/-!
# Sinks that fill up

Only printing looks at the sink. A run into a sink that holds `cap` bytes
therefore takes the same steps as a run into one without a limit, up to the
line that does not fit (`Machine.Reaches.capped`). That line fills the sink
and is an error like any other: nothing happens after it, so the sink is left
with the first `cap` bytes of what the other run prints.
-/

namespace Gradual

open EvalM

/-! ## Actions that leave the sink alone -/

def resink (sink : Sink) {α : Type} : EStateM.Result RuntimeError State α → EStateM.Result RuntimeError State α
  | .ok a s => .ok a { s with sink }
  | .error err s => .error err { s with sink }

/-- The action neither looks at the sink nor writes to it. -/
def SinkFree {α : Type} (x : EvalM α) : Prop :=
  ∀ (s : State) (sink : Sink), x { s with sink } = resink sink (x s)

namespace SinkFree

variable {α β : Type}

theorem pure (a : α) : SinkFree (Pure.pure a : EvalM α) :=
  fun _ _ => rfl

theorem throw (err : RuntimeError) : SinkFree (MonadExcept.throw err : EvalM α) :=
  fun _ _ => rfl

theorem bind {x : EvalM α} {g : α → EvalM β} (hx : SinkFree x) (hg : ∀ a, SinkFree (g a)) :
    SinkFree (x >>= g) := by
  intro s sink
  simp only [Bind.bind, EStateM.bind, hx s sink]
  cases x s with
  | ok a s₁ => exact hg a s₁ sink
  | error err s₁ => rfl

theorem asBool (v : Value) : SinkFree (EvalM.asBool v) := by
  intro s sink
  cases v <;> rfl

theorem asInt (v : Value) : SinkFree (EvalM.asInt v) := by
  intro s sink
  cases v <;> rfl

theorem asClosure (v : Value) : SinkFree (EvalM.asClosure v) := by
  intro s sink
  cases v <;> rfl

theorem asCell (v : Value) : SinkFree (EvalM.asCell v) := by
  intro s sink
  cases v <;> rfl

theorem operateInt (op : BinOp) (a b : Int64) : SinkFree (EvalM.operateInt op a b) := by
  cases op with
  | div | mod =>
    unfold EvalM.operateInt
    by_cases hb : b = 0
    · simp only [hb, ite_true]; exact .throw _
    · simp only [hb, ite_false]; exact .pure _
  | _ => exact .pure _

theorem operate (op : BinOp) (a b : Value) : SinkFree (EvalM.operate op a b) := by
  have hints : SinkFree (EvalM.asInt a >>= fun a => EvalM.asInt b >>= fun b => EvalM.operateInt op a b) :=
    (asInt a).bind fun _ => (asInt b).bind fun _ => operateInt op _ _
  cases op with
  | eq | ne => exact .pure _
  | _ => exact hints

theorem resolve (c : Chain) (x : String) : SinkFree (EvalM.resolve c x) := by
  intro s sink
  simp only [EvalM.resolve, get_bind_run]
  cases s.scopes.resolve c x <;> rfl

theorem declare (c : Chain) (x : String) (v : Value) : SinkFree (EvalM.declare c x v) := by
  intro s sink
  simp only [EvalM.declare]
  cases s.scopes.declare c x v <;> rfl

theorem openScope (c : Chain) (new : Scope Value) : SinkFree (EvalM.openScope c new) :=
  fun _ _ => rfl

theorem makeClosure (c : Chain) (x : String) (xTy : Ty) (ret : Option Ty) (body : Expr) :
    SinkFree (EvalM.makeClosure c x xTy ret body) := by
  intro s sink
  cases ret <;> rfl

theorem enter (f : Closure) (arg : Value) (d : Nat) : SinkFree (EvalM.enter f arg d) :=
  fun _ _ => rfl

theorem cellTyOf (ty : Option Ty) : SinkFree (EvalM.cellTyOf ty) := by
  intro s sink
  cases ty <;> rfl

theorem allocate (ty : Ty) (v : Value) : SinkFree (EvalM.allocate ty v) :=
  fun _ _ => rfl

theorem read (i : Nat) : SinkFree (EvalM.read i) :=
  fun _ _ => rfl

theorem write (i : Nat) (v : Value) : SinkFree (EvalM.write i v) :=
  fun _ _ => rfl

theorem castTo (target : Ty) (v : Value) : SinkFree (EvalM.castTo target v) := by
  intro s sink
  simp only [EvalM.castTo, get_bind_run]
  cases (s.cells.typeOf v).consistent target <;> rfl

end SinkFree

/-! ## Steps that leave the sink alone -/

namespace Machine

def withSink (sink : Sink) (m : Machine) : Machine :=
  { m with state := { m.state with sink } }

section
variable {K : List Frame} {d : Nat} {s : State} {sink : Sink}

theorem andThen_withSink {α : Type} {x : EvalM α} {next : α → State → Machine} (hx : SinkFree x)
    (hnext : ∀ a s', next a { s' with sink } = (next a s').withSink sink) :
    andThen K d (x { s with sink }) next = (andThen K d (x s) next).withSink sink := by
  rw [hx s sink]
  cases x s with
  | ok a s' => exact hnext a s'
  | error err s' => rfl

theorem hand_withSink {x : EvalM Value} (hx : SinkFree x) :
    hand K d (x { s with sink }) = (hand K d (x s)).withSink sink :=
  andThen_withSink hx fun _ _ => rfl

theorem visit_withSink (c : Chain) (e : Expr) :
    visit c K d { s with sink } e = (visit c K d s e).withSink sink := by
  cases e with
  | var x => exact hand_withSink (.resolve c x)
  | lam x xTy ret body => exact hand_withSink (.makeClosure c x xTy ret body)
  | alloc v ty => exact andThen_withSink (.cellTyOf ty) fun _ _ => rfl
  | _ => rfl

theorem resume_withSink (limit : Nat) (v : Value) {f : Frame} (hf : f ≠ .print) :
    resume limit v K d { s with sink } f = (resume limit v K d s f).withSink sink := by
  cases f with
  | print => exact absurd rfl hf
  | operate op a => exact hand_withSink (.operate op a v)
  | branch t e c =>
    refine andThen_withSink (.asBool v) fun b s' => ?_
    exact andThen_withSink (.openScope c {}) fun _ _ => rfl
  | argument a c => exact andThen_withSink (.asClosure v) fun _ _ => rfl
  | call g =>
    unfold resume
    by_cases hd : d < limit
    · simp only [hd, ite_true]; exact andThen_withSink (.enter g v d) fun _ _ => rfl
    · simp only [hd, ite_false]; rfl
  | seq es c => cases es <;> rfl
  | declare x c => exact hand_withSink (.declare c x v)
  | assigned e c => exact andThen_withSink (.asCell v) fun _ _ => rfl
  | write i => exact hand_withSink (.write i v)
  | deref => exact andThen_withSink (.asCell v) fun i s' => hand_withSink (.read i)
  | allocate ty => exact hand_withSink (.allocate ty v)
  | cast ty => exact hand_withSink (.castTo ty v)
  | right op r c | leave => rfl

end

/-- A step prints, or it is the same step whatever the sink is. -/
theorem step_withSink {limit : Nat} {m n : Machine} (hs : step limit m = .running n) :
    (∀ sink, step limit (m.withSink sink) = .running (n.withSink sink)) ∨
      ∃ v K d s, m = ⟨.done (.ok v), .print :: K, d, s⟩ := by
  obtain ⟨focus, K, d, s⟩ := m
  cases focus with
  | eval e c =>
    cases hs
    exact .inl fun sink => congrArg Progress.running (visit_withSink c e)
  | done r =>
    cases K with
    | nil => cases r <;> cases hs
    | cons f K =>
      cases r with
      | error err =>
        cases hs
        refine .inl fun sink => congrArg Progress.running ?_
        cases f <;> rfl
      | ok v =>
        by_cases hf : f = .print
        · subst hf
          exact .inr ⟨v, K, d, s, rfl⟩
        · cases hs
          exact .inl fun sink => congrArg Progress.running (resume_withSink limit v hf)

end Machine

/-! ## Full sinks -/

theorem extract_of_size_le {bytes : ByteArray} {n : Nat} (h : bytes.size ≤ n) : bytes.extract 0 n = bytes := by
  apply ByteArray.ext
  rw [ByteArray.data_extract]
  exact Array.extract_eq_self_of_le h

theorem extract_append_of_le {a : ByteArray} (b : ByteArray) {n : Nat} (h : n ≤ a.size) :
    (a ++ b).extract 0 n = a.extract 0 n := by
  rw [ByteArray.extract_append]
  simp [Nat.sub_eq_zero_of_le h]

namespace Sink

def capped (cap : Nat) (s : Sink) : Sink :=
  { s with capacity := some cap }

theorem write_free {s : Sink} (hfree : s.capacity = none) (bytes : ByteArray) :
    s.write bytes = ⟨none, s.written ++ bytes⟩ := by
  obtain ⟨capacity, written⟩ := s
  cases hfree
  rfl

/-- What is written to a sink with a limit is the first part of all there was
to write. -/
theorem write_capped {s : Sink} {cap : Nat} (hroom : s.written.size ≤ cap) (bytes : ByteArray) :
    (s.capped cap).write bytes = ⟨some cap, (s.written ++ bytes).extract 0 cap⟩ := by
  simp only [write, capped, ByteArray.extract_append, extract_of_size_le hroom, Nat.zero_sub]

theorem fits_capped (s : Sink) (cap : Nat) (bytes : ByteArray) :
    (s.capped cap).fits bytes.size = true ↔ (s.written ++ bytes).size ≤ cap := by
  unfold fits capped
  rw [ByteArray.size_append]
  exact decide_eq_true_iff

theorem fits_free {s : Sink} (hfree : s.capacity = none) (n : Nat) : s.fits n = true := by
  simp [fits, hfree]

theorem capacity_write (s : Sink) (bytes : ByteArray) : (s.write bytes).capacity = s.capacity := by
  unfold write
  cases s.capacity <;> rfl

end Sink

def line (cells : Cells) (v : Value) : ByteArray :=
  (cells.text v ++ "\n").toUTF8

section
variable {s : State} {cap : Nat} {v : Value}

theorem print_free (hfree : s.sink.capacity = none) :
    EvalM.print v s = .ok .unit { s with sink := ⟨none, s.sink.written ++ line s.cells v⟩ } := by
  have hfits := Sink.fits_free hfree (line s.cells v).size
  unfold EvalM.print
  simp only [line] at hfits ⊢
  simp only [hfits, ite_true, Sink.write_free hfree]

theorem print_fits (hroom : s.sink.written.size ≤ cap) (h : (s.sink.written ++ line s.cells v).size ≤ cap) :
    EvalM.print v { s with sink := s.sink.capped cap } =
      .ok .unit { s with sink := ⟨some cap, s.sink.written ++ line s.cells v⟩ } := by
  have hfits := (s.sink.fits_capped cap (line s.cells v)).mpr h
  unfold EvalM.print
  simp only [line] at hfits h ⊢
  simp only [hfits, ite_true, Sink.write_capped hroom, extract_of_size_le h]

theorem print_overflows (hroom : s.sink.written.size ≤ cap)
    (h : ¬ (s.sink.written ++ line s.cells v).size ≤ cap) :
    EvalM.print v { s with sink := s.sink.capped cap } =
      .error (.io Sink.fullReason)
        { s with sink := ⟨some cap, (s.sink.written ++ line s.cells v).extract 0 cap⟩ } := by
  have hfits := mt (s.sink.fits_capped cap (line s.cells v)).mp h
  unfold EvalM.print
  simp only [line] at hfits ⊢
  simp only [hfits, Sink.write_capped hroom]
  rfl

end

/-! ## Runs into a full sink -/

theorem State.Move.capacity {s s' : State} (h : s.Move s') : s'.sink.capacity = s.sink.capacity := by
  cases h with
  | touch h =>
    cases h with
    | print bytes => exact s.sink.capacity_write bytes
    | _ => rfl
  | _ => rfl

theorem State.Moves.capacity {s s' : State} (h : s.Moves s') : s'.sink.capacity = s.sink.capacity := by
  induction h with
  | refl => rfl
  | tail _ hmove ih => exact hmove.capacity.trans ih

namespace Machine

variable {limit cap : Nat} {m n : Machine}

def capped (cap : Nat) (m : Machine) : Machine :=
  m.withSink (m.state.sink.capped cap)

/-- At `n'` the sink is full: it holds the first `cap` bytes of all that the run
at `n` has printed. -/
structure Filled (cap : Nat) (n n' : Machine) : Prop where
  focus : n'.focus = .done (.error (.io Sink.fullReason))
  exceeded : cap < n.state.sink.written.size
  written : n'.state.sink.written = n.state.sink.written.extract 0 cap

theorem step_capped (hs : step limit m = .running n) (hfree : m.state.sink.capacity = none)
    (hroom : m.state.sink.written.size ≤ cap) :
    step limit (m.capped cap) = .running (n.capped cap) ∧ n.state.sink.written.size ≤ cap ∨
      ∃ n', step limit (m.capped cap) = .running n' ∧ Filled cap n n' := by
  obtain hquiet | ⟨v, K, d, s, rfl⟩ := step_withSink hs
  · left
    -- The step with the sink that is there shows that it leaves the sink as it is.
    have hsame : n = n.withSink m.state.sink := by
      have h := hquiet m.state.sink
      rw [show m.withSink m.state.sink = m from rfl, hs] at h
      exact Progress.running.inj h
    have hsink : n.state.sink = m.state.sink := by
      rw [hsame]
      rfl
    refine ⟨?_, by rw [hsink]; exact hroom⟩
    rw [capped, capped, hsink]
    exact hquiet _
  · have hn : n = hand K d (EvalM.print v s) := by
      cases hs
      rfl
    rw [print_free hfree] at hn
    subst hn
    have hstep : step limit (Machine.capped cap ⟨.done (.ok v), .print :: K, d, s⟩) =
        .running (hand K d (EvalM.print v { s with sink := s.sink.capped cap })) := rfl
    rw [hstep]
    by_cases h : (s.sink.written ++ line s.cells v).size ≤ cap
    · left
      rw [print_fits hroom h]
      exact ⟨rfl, h⟩
    · right
      rw [print_overflows hroom h]
      exact ⟨_, rfl, rfl, Nat.lt_of_not_le h, rfl⟩

theorem Filled.reaches {n n' k : Machine} (h : Filled cap n n') (hr : Reaches limit n k) : Filled cap k n' := by
  obtain ⟨rest, hrest⟩ := hr.moves.written
  refine ⟨h.focus, ?_, ?_⟩
  · rw [hrest, ByteArray.size_append]
    exact Nat.lt_of_lt_of_le h.exceeded (Nat.le_add_right _ _)
  · rw [hrest, extract_append_of_le rest (Nat.le_of_lt h.exceeded)]
    exact h.written

theorem Reaches.capped (hr : Reaches limit m n) (hfree : m.state.sink.capacity = none)
    (hroom : m.state.sink.written.size ≤ cap) :
    Reaches limit (m.capped cap) (n.capped cap) ∧ n.state.sink.written.size ≤ cap ∨
      ∃ n', Reaches limit (m.capped cap) n' ∧ Filled cap n n' := by
  induction hr with
  | refl m => exact .inl ⟨.refl _, hroom⟩
  | @head m m₁ n hs hr ih =>
    obtain ⟨hs', hroom₁⟩ | ⟨m', hs', hfilled⟩ := step_capped hs hfree hroom
    · have hfree₁ : m₁.state.sink.capacity = none := (moves_step hs).capacity.trans hfree
      obtain ⟨hr', hn⟩ | ⟨n', hr', hfilled⟩ := ih hfree₁ hroom₁
      · exact .inl ⟨.head hs' hr', hn⟩
      · exact .inr ⟨n', .head hs' hr', hfilled⟩
    · exact .inr ⟨m', .one hs', hfilled.reaches hr⟩

theorem run_capped (limit cap : Nat) (hfree : m.state.sink.capacity = none)
    (hroom : m.state.sink.written.size ≤ cap) :
    let free := run limit m
    let full := run limit (m.capped cap)
    full = { free with state := { free.state with sink := free.state.sink.capped cap } } ∧
        free.state.sink.written.size ≤ cap ∨
      full.result = .error (.io Sink.fullReason) ∧ cap < free.state.sink.written.size ∧
        full.state.sink.written = free.state.sink.written.extract 0 cap := by
  intro free full
  obtain ⟨hr, hn⟩ | ⟨n', hr, hfilled⟩ := (reaches_run limit m).capped hfree hroom
  · left
    exact ⟨(run_of_reaches hr).trans (run_done limit _ _ _), hn⟩
  · right
    have hfull : full = run limit n' := run_of_reaches hr
    obtain ⟨hresult, hstate⟩ := (reaches_run limit n').error hfilled.focus
    rw [hfull]
    refine ⟨by simpa using hresult, hfilled.exceeded, ?_⟩
    rw [show (run limit n').state = n'.state from hstate]
    exact hfilled.written

end Machine

/-- A program that prints to a sink which holds `cap` bytes ends as it does with
any room, in the same state, if all that it prints fits. If not, it fails for
lack of room, and the sink holds the first `cap` bytes of all it would print. -/
theorem run_full_sink (e : Expr) (config : Config) (cap : Nat) :
    let free := (Interpreter.fresh config {}).run e
    let full := (Interpreter.fresh config { capacity := some cap }).run e
    let out := free.2.state.sink.written
    (out.size ≤ cap →
      full.1 = free.1 ∧ full.2.state = { free.2.state with sink := ⟨some cap, out⟩ }) ∧
    (cap < out.size →
      full.1 = .error (.io Sink.fullReason) ∧ full.2.state.sink.written = out.extract 0 cap) := by
  intro free full out
  let m : Machine := ⟨.eval e [], [], 0, {}⟩
  obtain ⟨hfree, hfreeState⟩ : free.1 = _ ∧ free.2.state = _ :=
    Interpreter.run_outcome (rfl : Machine.run config.maxCallDepth m = _)
  obtain ⟨hfull, hfullState⟩ : full.1 = _ ∧ full.2.state = _ :=
    Interpreter.run_outcome (rfl : Machine.run config.maxCallDepth (m.capped cap) = _)
  have hout : out = (Machine.run config.maxCallDepth m).state.sink.written := by
    simp only [out, hfreeState, State.noting]
    split <;> rfl
  rw [hout, hfree, hfull, hfreeState, hfullState]
  obtain ⟨hsame, hroom⟩ | ⟨hio, hover, hwritten⟩ :=
    Machine.run_capped (m := m) config.maxCallDepth cap rfl (Nat.zero_le cap)
  · refine ⟨fun _ => ?_, fun hover => absurd hroom (Nat.not_le_of_lt hover)⟩
    rw [hsame]
    refine ⟨rfl, ?_⟩
    cases (Machine.run config.maxCallDepth m).result <;> rfl
  · refine ⟨fun hroom => absurd hroom (Nat.not_le_of_lt hover), fun _ => ?_⟩
    rw [hio]
    exact ⟨rfl, hwritten⟩

def printTwice : Expr :=
  .seq [
    .print (.const (.str "one")),
    .decl "f" none (.lam "x" .int (some .unit) (.print (.var "x"))),
    .app (.var "f") (.const (.int 23)),
    .const (.int 4)]

theorem run_full_sink_printTwice :
    let into (sink : Sink) := (Interpreter.fresh {} sink).run printTwice
    let out := (into {}).2.state.sink.written
    out = "one\n23\n".toUTF8 ∧ (into { capacity := some 7 }).1 = (into {}).1 ∧
      (into { capacity := some 5 }).1 = .error (.io Sink.fullReason) ∧
      (into { capacity := some 5 }).2.state.sink.written = "one\n2".toUTF8 := by
  intro into out
  have hout : out = "one\n23\n".toUTF8 := by
    simp only [out, into]
    rw [Interpreter.run, Interpreter.evaluate_eq]
    decide +kernel
  have hsize : out.size = 7 := by rw [hout]; decide +kernel
  have hfits := (run_full_sink printTwice {} 7).1 (Nat.le_of_eq hsize)
  have hcut := (run_full_sink printTwice {} 5).2 (by show 5 < out.size; rw [hsize]; decide)
  refine ⟨hout, hfits.1, hcut.1, hcut.2.trans ?_⟩
  show out.extract 0 5 = _
  rw [hout]
  decide +kernel

end Gradual

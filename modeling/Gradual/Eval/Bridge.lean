import Gradual.Eval.Machine
import Gradual.Eval.Semantics

/-!
# The machine computes the meaning of a tree

`Machine.eval_reaches`: a machine that is to evaluate a tree reaches the one
that hands the tree's meaning to the topmost frame, with the rest of the stack
and the number of running calls as they were. `Machine.halts`: every machine
stops.
-/

namespace Gradual.Machine

/-- Some number of steps leads from one machine to the other. -/
inductive Reaches (limit : Nat) : Machine → Machine → Prop where
  | refl (m : Machine) : Reaches limit m m
  | head {m m' m'' : Machine} (h : step limit m = .running m') (r : Reaches limit m' m'') :
      Reaches limit m m''

variable {limit : Nat}

theorem Reaches.trans {m m' m'' : Machine} (h : Reaches limit m m') (h' : Reaches limit m' m'') :
    Reaches limit m m'' := by
  induction h with
  | refl => exact h'
  | head hs _ ih => exact .head hs (ih h')

theorem Reaches.one {m m' : Machine} (h : step limit m = .running m') : Reaches limit m m' :=
  .head h (.refl m')

/-! ## Results and frames -/

theorem hand_bind {α : Type} (K : List Frame) (d : Nat) (x : EvalM α) (g : α → EvalM Value)
    (s : State) :
    hand K d ((x >>= g) s) = andThen K d (x s) fun a s => hand K d (g a s) := by
  simp only [bind, EStateM.bind]
  cases x s <;> rfl

theorem reaches_andThen {α : Type} {K : List Frame} {d : Nat}
    {r : EStateM.Result RuntimeError State α} {next next' : α → State → Machine}
    (h : ∀ a s, Reaches limit (next a s) (next' a s)) :
    Reaches limit (andThen K d r next) (andThen K d r next') := by
  cases r with
  | ok a s => exact h a s
  | error e s => exact .refl _

theorem step_error {f : Frame} (hf : f ≠ .leave) (e : RuntimeError) (K : List Frame) (d : Nat)
    (s : State) :
    step limit ⟨.done (.error e), f :: K, d, s⟩ = .running ⟨.done (.error e), K, d, s⟩ := by
  cases f <;> first | rfl | exact absurd rfl hf

/-- A frame that waits for the value of `x` and goes on with `g`. -/
theorem reaches_bind {m : Machine} {f : Frame} (hf : f ≠ .leave) {K : List Frame} {d : Nat}
    {x : EvalM Value} {g : Value → EvalM Value} {s : State}
    (hx : Reaches limit m (hand (f :: K) d (x s)))
    (hg : ∀ v s, Reaches limit ⟨.done (.ok v), f :: K, d, s⟩ (hand K d (g v s))) :
    Reaches limit m (hand K d ((x >>= g) s)) := by
  rw [hand_bind]
  refine hx.trans ?_
  cases x s with
  | ok v s => exact hg v s
  | error e s => exact .one (step_error hf e K d s)

/-! ## Trees -/

/-- The machine carries out a call at depth `d` as `call` says. -/
abbrev CallReaches (limit : Nat) (call : Call) (d : Nat) : Prop :=
  ∀ c v K s, Reaches limit ⟨.done (.ok v), .call c :: K, d, s⟩ (hand K d (call c v s))

mutual

theorem evalWith_reaches {call : Call} {d : Nat} (hcall : CallReaches limit call d) :
    ∀ (e : Expr) (scope : Chain) (K : List Frame) (s : State),
      Reaches limit ⟨.eval e scope, K, d, s⟩ (hand K d (e.evalWith call scope s))
  | .const _, _, _, _ => .one rfl
  | .var _, _, _, _ => .one rfl
  | .binary op l r, scope, K, s =>
    .head rfl (reaches_bind (by simp) (evalWith_reaches hcall l scope _ s) fun _ s =>
      .head rfl (reaches_bind (by simp) (evalWith_reaches hcall r scope _ s) fun _ _ => .one rfl))
  | .cond c t e, scope, K, s => by
    refine .head rfl (reaches_bind (by simp) (evalWith_reaches hcall c scope _ s) fun v s => ?_)
    refine .head rfl ?_
    rw [hand_bind]
    refine reaches_andThen fun b s => ?_
    rw [hand_bind]
    refine reaches_andThen fun inner s => ?_
    cases b with
    | true => exact evalWith_reaches hcall t inner K s
    | false => exact evalWith_reaches hcall e inner K s
  | .lam _ _ _ _, _, _, _ => .one rfl
  | .app f a, scope, K, s => by
    refine .head rfl (reaches_bind (by simp) (evalWith_reaches hcall f scope _ s) fun v s => ?_)
    refine .head rfl ?_
    rw [hand_bind]
    refine reaches_andThen fun c s => ?_
    exact reaches_bind (by simp) (evalWith_reaches hcall a scope _ s) fun v s => hcall c v K s
  | .seq es, scope, K, s => .head rfl (evalSeqWith_reaches hcall es scope .unit K s)
  | .decl _ _ v, scope, K, s =>
    .head rfl (reaches_bind (by simp) (evalWith_reaches hcall v scope _ s) fun _ _ => .one rfl)
  | .assign t v, scope, K, s => by
    refine .head rfl (reaches_bind (by simp) (evalWith_reaches hcall t scope _ s) fun target s => ?_)
    refine .head rfl ?_
    rw [hand_bind]
    refine reaches_andThen fun i s => ?_
    exact reaches_bind (by simp) (evalWith_reaches hcall v scope _ s) fun _ _ => .one rfl
  | .deref t, scope, K, s => by
    refine .head rfl (reaches_bind (by simp) (evalWith_reaches hcall t scope _ s) fun target s => ?_)
    refine .head rfl ?_
    rw [hand_bind]
    exact reaches_andThen fun i s => .refl _
  | .alloc v ty, scope, K, s => by
    refine .head rfl ?_
    rw [Expr.evalWith, hand_bind]
    refine reaches_andThen fun ty s => ?_
    exact reaches_bind (by simp) (evalWith_reaches hcall v scope _ s) fun _ _ => .one rfl
  | .print v, scope, K, s =>
    .head rfl (reaches_bind (by simp) (evalWith_reaches hcall v scope _ s) fun _ _ => .one rfl)
  | .cast _ e, scope, K, s =>
    .head rfl (reaches_bind (by simp) (evalWith_reaches hcall e scope _ s) fun _ _ => .one rfl)

theorem evalSeqWith_reaches {call : Call} {d : Nat} (hcall : CallReaches limit call d) :
    ∀ (es : List Expr) (scope : Chain) (last : Value) (K : List Frame) (s : State),
      Reaches limit ⟨.done (.ok last), .seq es scope :: K, d, s⟩
        (hand K d (Expr.evalSeqWith call scope last es s))
  | [], _, _, _, _ => .one rfl
  | e :: es, scope, _, K, s =>
    .head rfl (reaches_bind (by simp) (evalWith_reaches hcall e scope _ s) fun v s =>
      evalSeqWith_reaches hcall es scope v K s)

end

/-! ## Calls -/

theorem hand_leave (K : List Frame) (d : Nat) (r : EStateM.Result RuntimeError State Value) :
    Reaches limit (hand (.leave :: K) (d + 1) r) (hand K d r) := by
  cases r <;> exact .one rfl

theorem call_reaches : ∀ (left d : Nat), limit - d = left →
    CallReaches limit (Closure.call limit left) d
  | 0, d, hd, c, v, K, s => by
    refine .one ?_
    have : ¬ d < limit := by omega
    simp only [step, resume, this, ite_false]
    rfl
  | left + 1, d, hd, c, v, K, s => by
    have hlt : d < limit := by omega
    have hdepth : limit - (left + 1) = d := by omega
    have hs : step limit ⟨.done (.ok v), .call c :: K, d, s⟩ =
        .running (andThen K d (EvalM.enter c v d s) fun scope s =>
          ⟨.eval c.body scope, .leave :: K, d + 1, s⟩) := by
      simp only [step, resume, hlt, ite_true]
    refine .head hs ?_
    rw [Closure.call, hdepth, hand_bind]
    refine reaches_andThen fun scope s => ?_
    have ih := call_reaches left (d + 1) (by omega)
    exact (evalWith_reaches ih c.body scope (.leave :: K) s).trans (hand_leave K d _)

theorem eval_reaches (e : Expr) (scope : Chain) (K : List Frame) (d : Nat) (s : State) :
    Reaches limit ⟨.eval e scope, K, d, s⟩ (hand K d (e.eval limit d scope s)) :=
  evalWith_reaches (call_reaches (limit - d) d rfl) e scope K s

/-! ## Every machine stops -/

/-- There is no endless run from `m`. -/
abbrev Halts (limit : Nat) (m : Machine) : Prop :=
  Acc (fun m' m => step limit m = .running m') m

theorem Halts.of_step {m m' : Machine} (hs : step limit m = .running m') (h : Halts limit m') :
    Halts limit m :=
  ⟨m, fun n hn => by rw [hs] at hn; exact Progress.running.inj hn ▸ h⟩

theorem Halts.of_reaches {m m' : Machine} (r : Reaches limit m m') (h : Halts limit m') :
    Halts limit m := by
  induction r with
  | refl => exact h
  | head hs _ ih => exact (ih h).of_step hs

theorem halts_hand {K : List Frame} (hK : ∀ r d s, Halts limit ⟨.done r, K, d, s⟩) (d : Nat)
    (r : EStateM.Result RuntimeError State Value) : Halts limit (hand K d r) := by
  cases r <;> exact hK _ _ _

theorem halts_andThen {α : Type} {K : List Frame} (hK : ∀ r d s, Halts limit ⟨.done r, K, d, s⟩)
    (d : Nat) (r : EStateM.Result RuntimeError State α) {next : α → State → Machine}
    (h : ∀ a s, Halts limit (next a s)) : Halts limit (andThen K d r next) := by
  cases r with
  | ok a s => exact h a s
  | error e s => exact hK _ _ _

theorem halts_eval {K : List Frame} (hK : ∀ r d s, Halts limit ⟨.done r, K, d, s⟩) (e : Expr)
    (scope : Chain) (d : Nat) (s : State) : Halts limit ⟨.eval e scope, K, d, s⟩ :=
  (halts_hand hK d _).of_reaches (eval_reaches e scope K d s)

/-- A frame on top of a stack from which every run stops. -/
theorem halts_cons {K : List Frame} (hK : ∀ r d s, Halts limit ⟨.done r, K, d, s⟩) (f : Frame)
    (hv : ∀ v d s, Halts limit (resume limit v K d s f)) (r : Except RuntimeError Value) (d : Nat)
    (s : State) : Halts limit ⟨.done r, f :: K, d, s⟩ := by
  cases r with
  | ok v => exact (hv v d s).of_step rfl
  | error e =>
    refine Halts.of_step rfl ?_
    cases f <;> exact hK _ _ _

theorem halts_seq {K : List Frame} (hK : ∀ r d s, Halts limit ⟨.done r, K, d, s⟩)
    (scope : Chain) (es : List Expr) :
    ∀ r d s, Halts limit ⟨.done r, .seq es scope :: K, d, s⟩ := by
  induction es with
  | nil => exact halts_cons hK _ fun v d s => hK _ _ _
  | cons e es ih => exact halts_cons hK _ fun v d s => halts_eval ih _ _ _ _

theorem halts_call {K : List Frame} (hK : ∀ r d s, Halts limit ⟨.done r, K, d, s⟩) (c : Closure)
    (v : Value) (d : Nat) (s : State) : Halts limit (resume limit v K d s (.call c)) := by
  simp only [resume]
  split
  · exact halts_andThen hK d _ fun scope s =>
      halts_eval (halts_cons hK .leave fun w d s => hK _ _ _) _ _ _ _
  · exact hK _ _ _

theorem halts_done (K : List Frame) : ∀ r d s, Halts limit ⟨.done r, K, d, s⟩ := by
  induction K with
  | nil =>
    intro r d s
    refine ⟨_, fun m h => ?_⟩
    cases r <;> cases h
  | cons f K hK =>
    cases f with
    | seq es scope => exact halts_seq hK scope es
    | right op rhs scope =>
      exact halts_cons hK _ fun v d s =>
        halts_eval (halts_cons hK (.operate op v) fun w d s => halts_hand hK d _) _ _ _ _
    | operate op a => exact halts_cons hK _ fun v d s => halts_hand hK d _
    | branch t e scope =>
      exact halts_cons hK _ fun v d s => halts_andThen hK d _ fun b s =>
        halts_andThen hK d _ fun inner s => halts_eval hK _ _ _ _
    | argument a scope =>
      refine halts_cons hK _ fun v d s => halts_andThen hK d _ fun c s => halts_eval ?_ _ _ _ _
      exact halts_cons hK _ fun w d s => halts_call hK c w d s
    | call c => exact halts_cons hK _ fun v d s => halts_call hK c v d s
    | declare x scope => exact halts_cons hK _ fun v d s => halts_hand hK d _
    | assigned e scope =>
      exact halts_cons hK _ fun v d s => halts_andThen hK d _ fun i s =>
        halts_eval (halts_cons hK (.write i) fun w d s => halts_hand hK d _) _ _ _ _
    | write i => exact halts_cons hK _ fun v d s => halts_hand hK d _
    | deref =>
      exact halts_cons hK _ fun v d s => halts_andThen hK d _ fun i s => halts_hand hK d _
    | allocate ty => exact halts_cons hK _ fun v d s => halts_hand hK d _
    | print => exact halts_cons hK _ fun v d s => halts_hand hK d _
    | cast ty => exact halts_cons hK _ fun v d s => halts_hand hK d _
    | leave => exact halts_cons hK _ fun v d s => hK _ _ _

theorem halts (m : Machine) : Halts limit m := by
  obtain ⟨focus, K, d, s⟩ := m
  cases focus with
  | eval e scope => exact halts_eval (halts_done K) e scope d s
  | done r => exact halts_done K r d s

end Gradual.Machine

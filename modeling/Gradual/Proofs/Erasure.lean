import Gradual.Eval.Interpreter
import Gradual.Proofs.Growth
import Gradual.Proofs.Matching

/-!
# Runs without their casts

A cast hands a value on as it is or stops the run. So a program and the same
program with its casts taken out go on in step: each step of the one is a step
of the other, or comes from a cast and is none (`Machine.Erases.step`). Only
where a cast fails does the program end, while the other goes on.
-/

namespace Gradual

/-! ## Erasure -/

mutual

/-- The tree with each cast replaced by its body, in functions too. -/
def Expr.erase : Expr → Expr
  | .const c => .const c
  | .var x => .var x
  | .binary op l r => .binary op l.erase r.erase
  | .cond c t e => .cond c.erase t.erase e.erase
  | .lam x xTy ret body => .lam x xTy ret body.erase
  | .app f a => .app f.erase a.erase
  | .seq es => .seq (Expr.eraseAll es)
  | .decl x ty v => .decl x ty v.erase
  | .assign t v => .assign t.erase v.erase
  | .deref t => .deref t.erase
  | .alloc v ty => .alloc v.erase ty
  | .print v => .print v.erase
  | .cast _ e => e.erase

def Expr.eraseAll : List Expr → List Expr
  | [] => []
  | e :: es => e.erase :: Expr.eraseAll es

end

abbrev Value.erase : Value → Value := Value.mapBody Expr.erase

abbrev State.ErasesTo : State → State → Prop := State.Matches Expr.erase

def Frame.erase : Frame → Option Frame
  | .right op r c => some (.right op r.erase c)
  | .operate op a => some (.operate op a.erase)
  | .branch t e c => some (.branch t.erase e.erase c)
  | .argument a c => some (.argument a.erase c)
  | .call f => some (.call (f.mapBody Expr.erase))
  | .seq es c => some (.seq (Expr.eraseAll es) c)
  | .declare x c => some (.declare x c)
  | .assigned e c => some (.assigned e.erase c)
  | .write i => some (.write i)
  | .deref => some .deref
  | .allocate ty => some (.allocate ty)
  | .print => some .print
  | .cast _ => none
  | .leave => some .leave

def Focus.erase : Focus → Focus
  | .eval e c => .eval e.erase c
  | .done r => .done (r.map Value.erase)

namespace Machine

abbrev eraseStack (K : List Frame) : List Frame :=
  K.filterMap Frame.erase

inductive Erases : Machine → Machine → Prop where
  | mk {focus K d s s'} (h : s.ErasesTo s') : Erases ⟨focus, K, d, s⟩ ⟨focus.erase, eraseStack K, d, s'⟩

def CastFailed (m : Machine) : Prop :=
  ∃ shown actual target, m.focus = .done (.error (.castFailed shown actual target))

/-! ## Steps -/

section
variable {limit : Nat} {K : List Frame} {d : Nat} {s s' : State}

theorem erases_andThen {α β : Type} {g : α → β} {x : EvalM α} {y : EvalM β}
    {next : α → State → Machine} {next' : β → State → Machine} (hx : EvalM.Matches Expr.erase g x y)
    (h : s.ErasesTo s') (hnext : ∀ a s s', s.ErasesTo s' → Erases (next a s) (next' (g a) s')) :
    Erases (andThen K d (x s) next) (andThen (eraseStack K) d (y s') next') := by
  have hxs := hx s s' h
  generalize x s = rx at hxs ⊢
  generalize y s' = ry at hxs ⊢
  cases hxs with
  | ok h₁ => exact hnext _ _ _ h₁
  | error h₁ => exact .mk h₁

theorem erases_hand {x y : EvalM Value} (hx : EvalM.Matches Expr.erase Value.erase x y)
    (h : s.ErasesTo s') : Erases (hand K d (x s)) (hand (eraseStack K) d (y s')) :=
  erases_andThen hx h fun _ _ _ h₁ => .mk h₁

/-- The machine is matched by `m'`, or by the machine a step later. -/
def Follows (limit : Nat) (m m' : Machine) : Prop :=
  m.Erases m' ∨ ∃ n', step limit m' = .running n' ∧ m.Erases n'

theorem visit_follows (h : s.ErasesTo s') (c : Chain) (e : Expr) :
    Follows limit (visit c K d s e) ⟨.eval e.erase c, eraseStack K, d, s'⟩ := by
  cases e with
  | cast ty e => exact .inl (.mk h)
  | var x => exact .inr ⟨_, rfl, erases_hand (.resolve c x) h⟩
  | lam x xTy ret body => exact .inr ⟨_, rfl, erases_hand (.makeClosure c x xTy ret body) h⟩
  | alloc v ty => exact .inr ⟨_, rfl, erases_andThen (.cellTyOf ty) h fun _ _ _ h₁ => .mk h₁⟩
  | const k =>
    refine .inr ⟨_, rfl, ?_⟩
    cases k <;> exact .mk h
  | _ => exact .inr ⟨_, rfl, .mk h⟩

theorem call_erases (h : s.ErasesTo s') (v : Value) (f : Closure) :
    Erases (resume limit v K d s (.call f))
      (resume limit v.erase (eraseStack K) d s' (.call (f.mapBody Expr.erase))) := by
  unfold resume
  by_cases hd : d < limit
  · simp only [hd, ite_true]
    exact erases_andThen (.enter f v d) h fun _ _ _ h₁ => .mk h₁
  · simp only [hd, ite_false]
    exact .mk h

theorem branch_erases (h : s.ErasesTo s') (v : Value) (t e : Expr) (c : Chain) :
    Erases (resume limit v K d s (.branch t e c))
      (resume limit v.erase (eraseStack K) d s' (.branch t.erase e.erase c)) := by
  refine erases_andThen (.asBool v) h fun b s s' h₁ => ?_
  refine erases_andThen (.openScope c {}) h₁ fun inner s s' h₂ => ?_
  cases b <;> exact .mk h₂

theorem resume_erases (h : s.ErasesTo s') (v : Value) {f f' : Frame} (hf : f.erase = some f') :
    Erases (resume limit v K d s f) (resume limit v.erase (eraseStack K) d s' f') := by
  cases f with
  | cast ty => cases hf
  | call g => cases hf; exact call_erases h v g
  | branch t e c => cases hf; exact branch_erases h v t e c
  | operate op a => cases hf; exact erases_hand (.operate op a v) h
  | argument a c => cases hf; exact erases_andThen (.asClosure v) h fun _ _ _ h₁ => .mk h₁
  | seq es c => cases hf; cases es <;> exact .mk h
  | declare x c => cases hf; exact erases_hand (.declare c x v) h
  | assigned e c => cases hf; exact erases_andThen (.asCell v) h fun _ _ _ h₁ => .mk h₁
  | write i => cases hf; exact erases_hand (.write i v) h
  | deref => cases hf; exact erases_andThen (.asCell v) h fun i _ _ h₁ => erases_hand (.read i) h₁
  | allocate ty => cases hf; exact erases_hand (.allocate ty v) h
  | print => cases hf; exact erases_hand (.print v) h
  | right op r c | leave => cases hf; exact .mk h

theorem cast_erases (h : s.ErasesTo s') (v : Value) (ty : Ty) :
    Erases (hand K d (EvalM.castTo ty v s)) ⟨.done (.ok v.erase), eraseStack K, d, s'⟩ ∨
      CastFailed (hand K d (EvalM.castTo ty v s)) ∧ (hand K d (EvalM.castTo ty v s)).state.sink = s.sink := by
  simp only [EvalM.castTo, get_bind_run]
  cases (s.cells.typeOf v).consistent ty with
  | true => exact .inl (.mk h)
  | false => exact .inr ⟨⟨_, _, _, rfl⟩, rfl⟩

theorem unwind_follows (h : s.ErasesTo s') (err : RuntimeError) (f : Frame) :
    Follows limit (unwind err K d s f) ⟨.done (.error err), eraseStack (f :: K), d, s'⟩ := by
  cases f with
  | cast ty => exact .inl (.mk h)
  | _ => exact .inr ⟨_, rfl, .mk h⟩

end

/-- A step is matched by at most one step, unless a cast fails in it. -/
theorem Erases.step {limit : Nat} {m m' n : Machine} (h : m.Erases m') (hs : Machine.step limit m = .running n) :
    Follows limit n m' ∨ n.CastFailed ∧ n.state.sink = m.state.sink := by
  cases h with
  | @mk focus K d s s' h =>
    cases focus with
    | eval e c => cases hs; exact .inl (visit_follows h c e)
    | done r =>
      cases K with
      | nil => cases r <;> cases hs
      | cons f K =>
        cases r with
        | error err => cases hs; exact .inl (unwind_follows h err f)
        | ok v =>
          cases hs
          cases hf : f.erase with
          | some f' =>
            refine .inl (.inr ⟨_, ?_, resume_erases h v hf⟩)
            simp only [eraseStack, List.filterMap_cons, hf]
            rfl
          | none =>
            cases f with
            | cast ty => exact (cast_erases h v ty).imp .inl id
            | _ => cases hf

/-! ## Runs -/

theorem Erases.reaches {limit : Nat} {m m' n : Machine} (h : m.Erases m') (hr : Reaches limit m n) :
    (∃ n', Reaches limit m' n' ∧ n.Erases n') ∨
      ∃ n₁ n', n₁.CastFailed ∧ Reaches limit n₁ n ∧ Reaches limit m' n' ∧ n'.state.sink = n₁.state.sink := by
  induction hr generalizing m' with
  | refl m => exact .inl ⟨m', .refl _, h⟩
  | @head m m₁ n hs hr ih =>
    rcases h.step hs with (h₁ | ⟨n', hs', h₁⟩) | ⟨hf, hsink⟩
    · exact ih h₁
    · rcases ih h₁ with ⟨k, hk, hE⟩ | ⟨n₁, k, hf, hn, hk, hsink⟩
      · exact .inl ⟨k, .head hs' hk, hE⟩
      · exact .inr ⟨n₁, k, hf, hn, .head hs' hk, hsink⟩
    · refine .inr ⟨m₁, m', hf, hr, .refl _, ?_⟩
      rw [hsink]
      cases h with
      | mk h => exact h.sink

end Machine

theorem State.Matches.relog {φ : Expr → Expr} {s s' : State} (h : s.Matches φ s') (log log' : Log) :
    State.Matches φ { s with log } { s' with log := log' } :=
  ⟨h.scopes, h.cells, h.closures, h.sink⟩

theorem State.ErasesTo.fresh (sink : Sink) : State.ErasesTo { sink } { sink } :=
  ⟨by simp [ScopeTree.map, Scope.map], by simp [Cells.mapBody], rfl, rfl⟩

theorem Machine.run_erases (limit : Nat) {m m' : Machine} (h : m.Erases m') :
    ((run limit m').result = (run limit m).result.map Value.erase ∧
        (run limit m).state.ErasesTo (run limit m').state) ∨
      (∃ shown actual target, (run limit m).result = .error (.castFailed shown actual target)) ∧
        ∃ rest, (run limit m').state.sink.written = (run limit m).state.sink.written ++ rest := by
  rcases h.reaches (reaches_run limit m) with ⟨n', hr, hE⟩ | ⟨n₁, n', hf, hr, hr', hsink⟩
  · left
    rw [run_of_reaches hr]
    generalize run limit m = o at hE ⊢
    cases hE with
    | mk h => rw [Focus.erase, eraseStack, List.filterMap_nil, run_done]; exact ⟨rfl, h⟩
  · right
    obtain ⟨shown, actual, target, hfocus⟩ := hf
    obtain ⟨hresult, hstate⟩ := hr.error hfocus
    obtain ⟨rest, hrest⟩ := (reaches_run limit n').moves.written
    refine ⟨⟨shown, actual, target, by simpa using hresult⟩, rest, ?_⟩
    have hstate' : (run limit m).state = n₁.state := hstate
    rw [run_of_reaches hr', hstate', ← hsink]
    exact hrest

/-- Without its casts a program does what it did with them: the same output,
the same error or the same value, and the same cells, up to the casts in
functions. If a cast failed, at least what was printed until then is printed. -/
theorem run_erase (e : Expr) (config : Config) (sink : Sink) :
    let out := (Interpreter.fresh config sink).run e
    let erased := (Interpreter.fresh config sink).run e.erase
    ((∀ err, out.1 = .error err → err.kind ≠ "Cast") →
      erased.1 = out.1.map Value.erase ∧ out.2.state.ErasesTo erased.2.state) ∧
    ((∃ err, out.1 = .error err ∧ err.kind = "Cast") →
      ∃ rest, erased.2.state.sink.written = out.2.state.sink.written ++ rest) := by
  intro out erased
  let m : Machine := ⟨.eval e [], [], 0, { sink }⟩
  let m' : Machine := ⟨.eval e.erase [], [], 0, { sink }⟩
  have hE : m.Erases m' := .mk (.fresh sink)
  obtain ⟨hout, log, hst⟩ : out.1 = _ ∧ ∃ log, out.2.state = _ :=
    Interpreter.run_machine (rfl : Machine.run config.maxCallDepth m = _)
  obtain ⟨herased, log', hst'⟩ : erased.1 = _ ∧ ∃ log, erased.2.state = _ :=
    Interpreter.run_machine (rfl : Machine.run config.maxCallDepth m' = _)
  rw [hout, herased, hst, hst']
  rcases Machine.run_erases config.maxCallDepth hE with ⟨hresult, hstate⟩ | ⟨⟨_, _, _, hfail⟩, hrest⟩
  · refine ⟨fun _ => ⟨hresult, hstate.relog log log'⟩, fun _ => ⟨.empty, ?_⟩⟩
    rw [ByteArray.append_empty]
    exact congrArg Sink.written hstate.sink
  · exact ⟨fun hne => absurd rfl (hne _ hfail), fun _ => hrest⟩

def castInBody : Expr :=
  .seq [
    .decl "f" none (.lam "x" .dyn (some .int) (.cast .int (.var "x"))),
    .print (.app (.var "f") (.const (.int 7))),
    .var "f"]

def failLate : Expr :=
  .seq [
    .print (.const (.str "one")),
    .print (.cast .string (.const (.int 2)))]

theorem run_erase_failLate :
    ((∃ f, ((Interpreter.fresh {} {}).run castInBody).1 = .ok (.closure f)) ∧
      ((Interpreter.fresh {} {}).run castInBody.erase).1 =
        ((Interpreter.fresh {} {}).run castInBody).1.map Value.erase) ∧
    (∃ err, ((Interpreter.fresh {} {}).run failLate).1 = .error err ∧ err.kind = "Cast") ∧
      ∃ rest, ((Interpreter.fresh {} {}).run failLate.erase).2.state.sink.written =
        ((Interpreter.fresh {} {}).run failLate).2.state.sink.written ++ rest := by
  have hpass : ∃ f, ((Interpreter.fresh {} {}).run castInBody).1 = .ok (.closure f) := by
    rw [Interpreter.run, Interpreter.evaluate_eq]
    exact ⟨_, rfl⟩
  have hfail : ∃ err, ((Interpreter.fresh {} {}).run failLate).1 = .error err ∧ err.kind = "Cast" := by
    rw [Interpreter.run, Interpreter.evaluate_eq]
    exact ⟨_, rfl, rfl⟩
  refine ⟨⟨hpass, ?_⟩, hfail, (run_erase failLate {} {}).2 hfail⟩
  obtain ⟨f, hf⟩ := hpass
  refine ((run_erase castInBody {} {}).1 fun err he => ?_).1
  rw [hf] at he
  cases he

end Gradual

import Gradual.Eval.Interpreter
import Gradual.Proofs.Growth

/-!
# Raising the limit on calls

The limit is asked in one place only, when a call begins. Under a higher limit
a run therefore takes the same steps, up to the call that the lower one refuses
(`Machine.Reaches.raise`). The refusal is an error like any other: nothing
happens after it, so what was printed until then is also printed under the
higher limit.
-/

namespace Gradual

namespace Machine

variable {limit limit' : Nat}

structure Refuses (limit : Nat) (m n : Machine) : Prop where
  focus : n.focus = .done (.error (.stackOverflow limit))
  state : n.state = m.state

theorem resume_raise (h : limit ≤ limit') (v : Value) (K : List Frame) (d : Nat) (s : State) (f : Frame) :
    resume limit' v K d s f = resume limit v K d s f ∨
      Refuses limit ⟨.done (.ok v), f :: K, d, s⟩ (resume limit v K d s f) := by
  cases f with
  | call c =>
    unfold resume
    by_cases hd : d < limit
    · have hd' : d < limit' := by omega
      left
      simp only [hd, hd', ite_true]
    · right
      simp only [hd, ite_false]
      exact ⟨rfl, rfl⟩
  | seq es scope => cases es <;> exact .inl rfl
  | _ => exact .inl rfl

theorem step_raise (h : limit ≤ limit') {m n : Machine} (hs : step limit m = .running n) :
    step limit' m = .running n ∨ Refuses limit m n := by
  obtain ⟨focus, K, d, s⟩ := m
  cases focus with
  | eval e scope => exact .inl hs
  | done r =>
    cases K with
    | nil => cases r <;> cases hs
    | cons f K =>
      cases r with
      | error err => exact .inl hs
      | ok v =>
        cases hs
        obtain hsame | hrefuse := resume_raise h v K d s f
        · left
          simp only [step, hsame]
        · exact .inr hrefuse

theorem Reaches.raise (h : limit ≤ limit') {m n : Machine} (hr : Reaches limit m n) :
    Reaches limit' m n ∨ ∃ k k', Reaches limit' m k ∧ Refuses limit k k' ∧ Reaches limit k' n := by
  induction hr with
  | refl m => exact .inl (.refl m)
  | @head m m₁ n hs hr ih =>
    obtain hs' | hrefuse := step_raise h hs
    · obtain hr' | ⟨k, k', hk, hrefuse, hn⟩ := ih
      · exact .inl (.head hs' hr')
      · exact .inr ⟨k, k', .head hs' hk, hrefuse, hn⟩
    · exact .inr ⟨m, m₁, .refl m, hrefuse, hr⟩

theorem run_raise (h : limit ≤ limit') (m : Machine) :
    run limit' m = run limit m ∨
      (run limit m).result = .error (.stackOverflow limit) ∧
        ∃ rest, (run limit' m).state.sink.written = (run limit m).state.sink.written ++ rest := by
  -- Two runs that part do so at `k`, where the lower one has printed all it will.
  obtain hr | ⟨k, k', hk, ⟨hfocus, hstate⟩, hn⟩ := (reaches_run limit m).raise h
  · left
    rw [run_of_reaches hr, run_done]
  · right
    obtain ⟨hresult, hend⟩ := hn.error hfocus
    have hend : (run limit m).state = k.state := hend.trans hstate
    obtain ⟨rest, hrest⟩ := (reaches_run limit' k).moves.written
    refine ⟨by simpa using hresult, rest, ?_⟩
    rw [hend, run_of_reaches hk]
    exact hrest

end Machine

namespace Interpreter

/-- A higher limit on calls changes nothing about a run that met no limit: the
same value or error, and the same state, with its output, scopes, cells and
log. A run that was cut off has printed a first part of what is printed now. -/
theorem evaluate_raise_limit (i : Interpreter) (e : Expr) (scope : Chain) {m m' : Nat} (h : m ≤ m') :
    let low := { i with config.maxCallDepth := m }.evaluate e scope
    let high := { i with config.maxCallDepth := m' }.evaluate e scope
    ((∀ err, low.1 = .error err → err.kind ≠ "StackOverflow") →
      high.1 = low.1 ∧ high.2.state = low.2.state ∧ high.2.callDepth = low.2.callDepth) ∧
    ∃ rest, high.2.state.sink.written = low.2.state.sink.written ++ rest := by
  intro low high
  let start : Machine := ⟨.eval e scope, [], i.callDepth, i.state⟩
  have hlow : low.1 = (Machine.run m start).result ∧ low.2.state = (Machine.run m start).state ∧
      low.2.callDepth = (Machine.run m start).depth := ⟨rfl, rfl, rfl⟩
  have hhigh : high.1 = (Machine.run m' start).result ∧ high.2.state = (Machine.run m' start).state ∧
      high.2.callDepth = (Machine.run m' start).depth := ⟨rfl, rfl, rfl⟩
  rw [hlow.1, hlow.2.1, hlow.2.2, hhigh.1, hhigh.2.1, hhigh.2.2]
  obtain hsame | ⟨hover, hrest⟩ := Machine.run_raise h start
  · rw [hsame]
    exact ⟨fun _ => ⟨rfl, rfl, rfl⟩, .empty, by simp⟩
  · exact ⟨fun hne => absurd rfl (hne _ hover), hrest⟩

def nestedCalls : Expr :=
  .seq [
    .decl "g" none (.lam "y" .int (some .unit) (.print (.var "y"))),
    .decl "f" none (.lam "x" .int (some .unit) (.seq [.print (.var "x"), .app (.var "g") (.var "x")])),
    .app (.var "f") (.const (.int 1))]

theorem evaluate_raise_limit_nestedCalls :
    let under (m : Nat) := { fresh {} {} with config.maxCallDepth := m }.evaluate nestedCalls []
    let failure (m : Nat) : Option RuntimeError :=
      match (under m).1 with
      | .ok _ => none
      | .error err => some err
    (failure 1 = some (.stackOverflow 1) ∧
      ∃ rest, (under 2).2.state.sink.written = (under 1).2.state.sink.written ++ rest) ∧
    failure 2 = none ∧ (under 3).1 = (under 2).1 := by
  intro under failure
  have h₁ : failure 1 = some (.stackOverflow 1) := by
    simp only [failure, under]
    rw [evaluate_eq]
    decide +kernel
  have h₂ : failure 2 = none := by
    simp only [failure, under]
    rw [evaluate_eq]
    decide +kernel
  have hcut := (evaluate_raise_limit (fresh {} {}) nestedCalls [] (show 1 ≤ 2 by decide)).2
  have hsame := (evaluate_raise_limit (fresh {} {}) nestedCalls [] (show 2 ≤ 3 by decide)).1
  have hno : ∀ err, (under 2).1 = .error err → err.kind ≠ "StackOverflow" := by
    intro err herr
    simp only [failure, herr] at h₂
    cases h₂
  exact ⟨⟨h₁, hcut⟩, h₂, (hsame hno).1⟩

end Interpreter

end Gradual

import Gradual.Proofs.LogFree
import Gradual.Proofs.SessionScopes

/-!
# Sessions and batches

A session checks a program, runs it, and goes on to the next. A batch checks
all programs as one sequence before it runs anything. Checking does not see
what running did, and running does not see what was checked, so both come to
the same (`Session.batch_agrees`): the same trees, the same value or error, the
same output, scopes and cells.
-/

namespace Gradual

theorem check_relog {e e' : Expr} {ty : Ty} {Γ : Context} {log : Log} {σ : CheckState}
    (h : e.check ⟨Γ, log⟩ = .ok (ty, e') σ) (later : Log) :
    ∃ log', e.check ⟨Γ, later⟩ = .ok (ty, e') ⟨σ.context, log'⟩ := by
  have halike := check_looksAt e ⟨Γ, log⟩ ⟨Γ, later⟩ rfl
  rw [h] at halike
  generalize e.check ⟨Γ, later⟩ = r at halike ⊢
  cases halike with
  | @ok _ _ σ' hctx =>
    refine ⟨σ'.log, ?_⟩
    have hctx : σ.context = σ'.context := hctx
    rw [hctx]

namespace Session

/-- The programs are checked one after the other, and none is refused. -/
inductive Accepts : Session → List Expr → List (Ty × Expr) → Session → Prop where
  | nil {s} : Accepts s [] [] s
  | cons {s s₁ s₂ p ps ty p' checked} :
      s.check p = (.ok (ty, p'), s₁) → Accepts s₁ ps checked s₂ →
      Accepts s (p :: ps) ((ty, p') :: checked) s₂

/-- Checks and runs the programs in turn, up to the first that is refused or
fails. The value is that of the last, or `last` if there is none. -/
def play (s : Session) (last : Value) : List Expr → Except (TypeError ⊕ RuntimeError) Value × Session
  | [] => (.ok last, s)
  | p :: ps =>
    match s.check p with
    | (.error err, s) => (.error (.inl err), s)
    | (.ok (_, p'), s) =>
      match s.eval p' with
      | (.error err, s) => (.error (.inr err), s)
      | (.ok v, s) => s.play v ps

/-! ## Checking -/

section
variable {s s' t : Session} {p p' : Expr} {ty : Ty}

theorem check_of_ok (hs : s.scope = []) {log : Log} {σ : CheckState}
    (h : p.check ⟨s.context, log⟩ = .ok (ty, p') σ) :
    ∃ s₁, s.check p = (.ok (ty, p'), s₁) ∧ s₁.context = σ.context ∧ s₁.interpreter = s.interpreter ∧
      s₁.scope = [] := by
  obtain ⟨log', hfresh⟩ := check_relog h #[]
  have hprogram : p.checkProgram { context := s.context } =
      .ok (ty, p') ⟨σ.context, log'.push (.checked ty p'.casts)⟩ := bind_run hfresh rfl
  simp only [check, isGlobal_of_scope hs, ite_true, EStateM.run, hprogram]
  exact ⟨_, rfl, rfl, rfl, hs⟩

theorem ok_of_check (hs : s.scope = []) {s₁ : Session} (h : s.check p = (.ok (ty, p'), s₁)) (log : Log) :
    (∃ log', p.check ⟨s.context, log⟩ = .ok (ty, p') ⟨s₁.context, log'⟩) ∧ s₁.interpreter = s.interpreter ∧
      s₁.scope = [] := by
  obtain ⟨σ, hprogram, hctx, hinterp, hscope⟩ := check_eq_ok hs h
  obtain ⟨σ₁, hE, hσ⟩ := Elab.of_checkProgram hprogram
  rw [hctx, hσ]
  exact ⟨check_relog hE.check log, hinterp, hscope.trans hs⟩

theorem check_transfer (hs : s.scope = []) (ht : t.scope = []) (hctx : t.context = s.context) {s₁ : Session}
    (h : s.check p = (.ok (ty, p'), s₁)) :
    ∃ t₁, t.check p = (.ok (ty, p'), t₁) ∧ t₁.context = s₁.context ∧ t₁.interpreter = t.interpreter ∧
      t₁.scope = [] := by
  obtain ⟨⟨log', hok⟩, -, -⟩ := ok_of_check hs h #[]
  rw [← hctx] at hok
  exact check_of_ok ht hok

theorem Accepts.checkSeq {ps : List Expr} {checked : List (Ty × Expr)} (h : Accepts s ps checked s')
    (hs : s.scope = []) (last : Ty) (log : Log) :
    ∃ log', Expr.checkSeq last ps ⟨s.context, log⟩ =
      .ok ((checked.getLast?.map Prod.fst).getD last, checked.map Prod.snd) ⟨s'.context, log'⟩ := by
  induction h generalizing last log with
  | nil => exact ⟨log, rfl⟩
  | @cons s s₁ s₂ p ps ty p' checked hp _ ih =>
    obtain ⟨⟨log₁, hok⟩, -, hs₁⟩ := ok_of_check hs hp log
    obtain ⟨log₂, hrest⟩ := ih hs₁ ty log₁
    have hlast : ((((ty, p') :: checked).getLast?.map Prod.fst).getD last) =
        (checked.getLast?.map Prod.fst).getD ty := by
      rw [List.getLast?_cons]
      cases checked.getLast? <;> rfl
    rw [hlast]
    exact ⟨log₂, bind_run hok (bind_run hrest rfl)⟩

theorem Accepts.of_checkSeq {ps es : List Expr} {last : Ty} {log : Log} {σ : CheckState}
    (hs : s.scope = []) (h : Expr.checkSeq last ps ⟨s.context, log⟩ = .ok (ty, es) σ) :
    ∃ checked s', Accepts s ps checked s' := by
  induction ps generalizing s last log es ty σ with
  | nil => exact ⟨[], s, .nil⟩
  | cons p ps ih =>
    obtain ⟨⟨ty₁, p'⟩, σ₁, hp, h⟩ := bind_eq_ok h
    obtain ⟨⟨ty₂, es'⟩, σ₂, hrest, -⟩ := bind_eq_ok h
    obtain ⟨s₁, hcheck, hctx, -, hs₁⟩ := check_of_ok hs hp
    have hσ : σ₁ = ⟨s₁.context, σ₁.log⟩ := by rw [hctx]
    rw [hσ] at hrest
    obtain ⟨checked, s', hacc⟩ := ih hs₁ hrest
    exact ⟨_, s', .cons hcheck hacc⟩

end

/-! ## Running -/

inductive EndsAs : EStateM.Result RuntimeError State Value →
    Except (TypeError ⊕ RuntimeError) Value × Session → Prop where
  | ok {v st s} : st.unlogged = s.interpreter.state.unlogged → EndsAs (.ok v st) (.ok v, s)
  | error {err st s} :
      st.unlogged = s.interpreter.state.unlogged → EndsAs (.error err st) (.error (.inr err), s)

theorem eval_eq {s : Session} (hs : s.scope = []) (e : Expr) :
    ∃ log, s.eval e =
      match e.eval s.interpreter.config.maxCallDepth s.interpreter.callDepth [] s.interpreter.state with
      | .ok v st => (.ok v, { s with interpreter.state := st.unlogged, log })
      | .error err st => (.error err, { s with interpreter.state := st.unlogged, log }) := by
  simp only [Session.eval, isGlobal_of_scope hs, ite_true, Interpreter.run, Interpreter.evaluate_eq]
  cases e.eval s.interpreter.config.maxCallDepth s.interpreter.callDepth [] s.interpreter.state with
  | ok v st => exact ⟨_, rfl⟩
  | error err st => exact ⟨_, rfl⟩

theorem Accepts.play {s s' t : Session} {ps : List Expr} {checked : List (Ty × Expr)}
    (h : Accepts s ps checked s') (hs : s.scope = []) (ht : t.scope = []) (hctx : t.context = s.context)
    {limit depth : Nat} (hlimit : t.interpreter.config.maxCallDepth = limit)
    (hdepth : t.interpreter.callDepth = depth) {st : State}
    (hst : st.unlogged = t.interpreter.state.unlogged) (last : Value) :
    EndsAs (Expr.evalSeqWith (Closure.call limit (limit - depth)) [] last (checked.map Prod.snd) st)
      (t.play last ps) := by
  induction h generalizing t st last with
  | nil => exact .ok hst
  | @cons s s₁ s₂ p ps ty p' checked hp _ ih =>
    obtain ⟨-, -, hs₁⟩ := ok_of_check hs hp #[]
    obtain ⟨t₁, hcheck, hctx₁, hinterp, ht₁⟩ := check_transfer hs ht hctx hp
    obtain ⟨log, heval⟩ := eval_eq ht₁ p'
    rw [hinterp, hlimit, hdepth] at heval
    -- The batch runs `p'` in a state that differs from the session's in the log only.
    have halike := evalWith_looksAt (call_looksAt limit (limit - depth)) [] p' _ _ hst
    simp only [Session.play, hcheck, heval, List.map_cons, Expr.evalSeqWith, bind, EStateM.bind, Expr.eval]
    generalize p'.evalWith (Closure.call limit (limit - depth)) [] st = r at halike ⊢
    generalize p'.evalWith (Closure.call limit (limit - depth)) [] t.interpreter.state = r' at halike ⊢
    cases halike with
    | @ok v st₁ st₂ h₁ =>
      let t₂ : Session := { t₁ with interpreter := { t.interpreter with state := st₂.unlogged }, log }
      exact ih (t := t₂) hs₁ ht₁ hctx₁ hlimit hdepth h₁ v
    | error h₁ => exact .error h₁

/-- Programs that a session accepts one by one are accepted as one sequence, and
the other way round. Their trees and the declared names are the same, and so is
what comes of running the sequence and of running each program before the next
is checked. -/
theorem batch_agrees (config : Config) (sink : Sink) {ps : List Expr} (hps : ps ≠ []) :
    let s : Session := { interpreter := .fresh config sink }
    (∀ checked s', s.Accepts ps checked s' → ∃ ty tree b,
      s.check (.seq ps) = (.ok (ty, .seq (checked.map Prod.snd)), b) ∧
      checked.getLast? = some (ty, tree) ∧ b.context = s'.context ∧
      let batch := b.eval (.seq (checked.map Prod.snd))
      let played := s.play .unit ps
      played.1 = batch.1.mapError .inr ∧
      played.2.interpreter.state.unlogged = batch.2.interpreter.state.unlogged) ∧
    ((∃ ty tree b, s.check (.seq ps) = (.ok (ty, tree), b)) → ∃ checked s', s.Accepts ps checked s') := by
  intro s
  have hs : s.scope = [] := rfl
  refine ⟨fun checked s' hacc => ?_, ?_⟩
  · obtain ⟨log, hseq⟩ := hacc.checkSeq hs .unit #[]
    have hcheck : (Expr.seq ps).check ⟨s.context, #[]⟩ = _ := bind_run hseq rfl
    obtain ⟨b, hb, hctx, hinterp, hscope⟩ := check_of_ok hs hcheck
    have hne : checked ≠ [] := by
      cases hacc with
      | nil => exact absurd rfl hps
      | cons _ _ => simp
    obtain ⟨⟨ty, tree⟩, hlast⟩ : ∃ last, checked.getLast? = some last :=
      ⟨_, List.getLast?_eq_some_getLast hne⟩
    rw [hlast] at hb
    refine ⟨ty, tree, b, hb, hlast, hctx, ?_⟩
    have hends := hacc.play hs hs rfl rfl rfl (rfl : s.interpreter.state.unlogged = _) .unit
    obtain ⟨log', heval⟩ := eval_eq hscope (.seq (checked.map Prod.snd))
    rw [hinterp, Expr.eval, Expr.evalWith] at heval
    rw [heval]
    generalize s.play .unit ps = played at hends ⊢
    generalize Expr.evalSeqWith _ [] .unit (checked.map Prod.snd) s.interpreter.state = r at hends ⊢
    cases hends with
    | ok h => exact ⟨rfl, h.symm⟩
    | error h => exact ⟨rfl, h.symm⟩
  · rintro ⟨ty, tree, b, hb⟩
    obtain ⟨⟨log, hok⟩, -, -⟩ := ok_of_check hs hb #[]
    obtain ⟨⟨ty₁, es⟩, σ, hseq, -⟩ := bind_eq_ok hok
    exact Accepts.of_checkSeq hs hseq

def bumps : List Expr :=
  [.decl "c" none (.alloc (.const (.int 1)) none),
   .decl "bump" none
     (.lam "n" .dyn none (.assign (.var "c") (.binary .add (.deref (.var "c")) (.var "n")))),
   .print (.deref (.app (.var "bump") (.const (.int 2)))),
   .app (.var "bump") (.const (.str "x"))]

def bumpsChecked : List (Ty × Expr) :=
  [(.unit, .decl "c" none (.alloc (.const (.int 1)) (some .int))),
   (.unit, .decl "bump" none
     (.lam "n" .dyn (some (.ref .int))
       (.assign (.var "c") (.binary .add (.deref (.var "c")) (.cast .int (.var "n")))))),
   (.unit, .print (.deref (.app (.var "bump") (.cast .dyn (.const (.int 2)))))),
   (.ref .int, .app (.var "bump") (.cast .dyn (.const (.str "x"))))]

theorem batch_agrees_bumps :
    let s : Session := { interpreter := .fresh {} {} }
    bumps ≠ [] ∧ ∃ s' b, s.Accepts bumps bumpsChecked s' ∧
      s.check (.seq bumps) = (.ok (.ref .int, .seq (bumpsChecked.map Prod.snd)), b) ∧
      (s.play .unit bumps).1 = (b.eval (.seq (bumpsChecked.map Prod.snd))).1.mapError .inr := by
  intro s
  have hne : bumps ≠ [] := by simp [bumps]
  have hacc : ∃ s', s.Accepts bumps bumpsChecked s' :=
    ⟨_, .cons rfl (.cons rfl (.cons rfl (.cons rfl .nil)))⟩
  obtain ⟨s', hacc⟩ := hacc
  obtain ⟨ty, tree, b, hb, hlast, -, hplay, -⟩ := (batch_agrees {} {} hne).1 bumpsChecked s' hacc
  cases hlast
  exact ⟨hne, s', b, hacc, hb, hplay⟩

end Session

end Gradual

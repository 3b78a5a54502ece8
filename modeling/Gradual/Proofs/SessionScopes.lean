import Gradual.Proofs.Soundness

/-!
# Scopes over a session

The checker and the interpreter of a session keep scopes of their own. As long
as every program that was checked was also run, and to its end, the two global
scopes bind the same names. So the interpreter never misses a name that the
checker found, whatever becomes of the types (`Session.Ran.inStep`).
-/

namespace Gradual

namespace Session

def retuned (s : Session) (config : Config) (sink : Sink) : Session :=
  { s with interpreter := { s.interpreter with config, state := { s.interpreter.state with sink } } }

/-- Every program of the session was checked and then run, and none failed. The
configuration and the sink may change from one run to the next. -/
inductive Ran : Session → Prop where
  | fresh : Ran {}
  | program {s s₁ s₂ p p' ty v} (config : Config) (sink : Sink) :
      Ran s → s.check p = (.ok (ty, p'), s₁) → (s₁.retuned config sink).eval p' = (.ok v, s₂) → Ran s₂

/-- The global scope of the checker is that of a world in which the state is fine. -/
structure InStep (s : Session) : Prop where
  scope : s.scope = []
  outer : s.context.outer = []
  world : ∃ W, State.Fine .blind W s.interpreter.state ∧ W.scopes.global = s.context.current

theorem InStep.fresh : InStep {} :=
  ⟨rfl, rfl, World.start [], .start _ _ _, rfl⟩

theorem isGlobal_of_scope {s : Session} (hs : s.scope = []) : s.isGlobal = true := by
  rw [isGlobal, hs]
  rfl

theorem check_eq_ok {s s₁ : Session} {p p' : Expr} {ty : Ty} (hs : s.scope = [])
    (h : s.check p = (.ok (ty, p'), s₁)) :
    ∃ σ, p.checkProgram { context := s.context } = .ok (ty, p') σ ∧ s₁.context = σ.context ∧
      s₁.interpreter = s.interpreter ∧ s₁.scope = s.scope := by
  simp only [check, isGlobal_of_scope hs, ite_true, EStateM.run] at h
  cases hc : p.checkProgram { context := s.context } with
  | ok checked σ =>
    rw [hc] at h
    cases h
    exact ⟨σ, rfl, rfl, rfl, rfl⟩
  | error err σ => rw [hc] at h; cases h

/-- Checked in step, a program starts in step: every name in it has a type and
a value. -/
theorem InStep.start {s s₁ : Session} {p p' : Expr} {ty : Ty} (h : InStep s)
    (hcheck : s.check p = (.ok (ty, p'), s₁)) :
    s₁.scope = [] ∧ s₁.context.outer = [] ∧
      ∃ W, ∀ sink, Machine.Fine .blind s₁.context.current ty W
        ⟨.eval p' [], [], s₁.interpreter.callDepth, { s₁.interpreter.state with sink }⟩ := by
  obtain ⟨σ, hprogram, hctx, hinterp, hscope⟩ := check_eq_ok h.scope hcheck
  obtain ⟨σ₁, hE, hσ⟩ := Elab.of_checkProgram hprogram
  obtain ⟨W, hst, hglobal⟩ := h.world
  have hready : Ready .blind ⟨[], p.lets⟩ { context := s.context } p :=
    ⟨h.outer.symm, fun _ hx => hx, fun hb => absurd Discipline.blind_blind hb⟩
  have hsees : W.Sees .blind [] (Place.layers ⟨[], p.lets⟩ s.context.current) := by
    refine .global ⟨.inl Discipline.blind_blind, ?_, fun _ => hglobal⟩
    rw [← hglobal]; exact .refl _ _
  rw [hctx, hσ, hinterp]
  refine ⟨hscope.trans h.scope, hE.context.1.trans h.outer, W, fun sink => ?_⟩
  exact .eval (hst.congr rfl rfl) hsees (hE.typed _ hready fun _ _ => trivial) .nil

theorem InStep.eval {s s₁ : Session} {p p' : Expr} {ty : Ty} (h : InStep s)
    (hcheck : s.check p = (.ok (ty, p'), s₁)) (config : Config) (sink : Sink) :
    (∀ err, ((s₁.retuned config sink).eval p').1 = .error err → err.Fine .blind) ∧
      ∀ v, ((s₁.retuned config sink).eval p').1 = .ok v → InStep ((s₁.retuned config sink).eval p').2 := by
  obtain ⟨hscope, houter, W, hm⟩ := h.start hcheck
  let i := (s₁.retuned config sink).interpreter
  obtain ⟨W', -, hst, hok, herr⟩ := Interpreter.run_ends (i := i) (hm sink) fun m _ =>
    Discipline.blind_honest m
  have heval : (s₁.retuned config sink).eval p' =
      ((i.run p').1, { s₁.retuned config sink with interpreter := (i.run p').2 }.drain) := by
    have hg : (s₁.retuned config sink).isGlobal = true := isGlobal_of_scope hscope
    simp only [Session.eval, hg, ite_true]; rfl
  rw [heval]
  exact ⟨herr, fun v hv => ⟨hscope, houter, W', hst.congr rfl rfl, (hok v hv).2⟩⟩

theorem Ran.inStep {s : Session} (h : Ran s) : InStep s := by
  induction h with
  | fresh => exact .fresh
  | program config sink _ hcheck heval ih =>
    have := (ih.eval hcheck config sink).2
    rw [heval] at this
    exact this _ rfl

/-- A program that is checked in such a session finds every name it was checked
with, and leaves the two global scopes with the same names. -/
theorem Ran.scopes_agree {s s₁ : Session} {p p' : Expr} {ty : Ty} (h : Ran s)
    (hcheck : s.check p = (.ok (ty, p'), s₁)) (config : Config) (sink : Sink) :
    let out := (s₁.retuned config sink).eval p'
    (∀ err, out.1 = .error err → err.kind ∉ ["UnboundName", "Redeclaration", "NotTypechecked"]) ∧
    ∀ v, out.1 = .ok v → out.2.context.outer = [] ∧
      ∀ x, out.2.context.current.binds x = out.2.interpreter.state.scopes.global.binds x := by
  intro out
  obtain ⟨herr, hok⟩ := h.inStep.eval hcheck config sink
  refine ⟨fun err he => (herr err he).kind_not_scope, fun v hv => ?_⟩
  obtain ⟨-, houter, W, hst, hglobal⟩ := hok v hv
  refine ⟨houter, fun x => ?_⟩
  rw [← hglobal]; exact (hst.binds [] x).symm

def declareAddOne : Expr :=
  .decl "f" (some (.fn .dyn .int)) (.lam "x" .int none (.binary .add (.var "x") (.const (.int 1))))

def declareAddOneChecked : Expr :=
  .decl "f" (some (.fn .dyn .int))
    (.cast (.fn .dyn .int) (.lam "x" .int (some .int) (.binary .add (.var "x") (.const (.int 1)))))

def callWithString : Expr :=
  .app (.var "f") (.const (.str "a"))

def callWithStringChecked : Expr :=
  .app (.var "f") (.cast .dyn (.const (.str "a")))

theorem Ran.scopes_agree_callWithString :
    ∃ s s₁, Ran s ∧ s.check callWithString = (.ok (.int, callWithStringChecked), s₁) ∧
      ∀ config sink err, ((s₁.retuned config sink).eval callWithStringChecked).1 = .error err →
        err.kind ∉ ["UnboundName", "Redeclaration", "NotTypechecked"] := by
  let s₁ := (({} : Session).check declareAddOne).2
  let s₂ := ((s₁.retuned {} {}).eval declareAddOneChecked).2
  have hdecl : ({} : Session).check declareAddOne = (.ok (.unit, declareAddOneChecked), s₁) := rfl
  have heval : (s₁.retuned {} {}).eval declareAddOneChecked = (.ok .unit, s₂) := by
    refine Prod.ext ?_ rfl
    show (Interpreter.run (s₁.retuned {} {}).interpreter declareAddOneChecked).1 = .ok .unit
    rw [Interpreter.run, Interpreter.evaluate_eq]
    rfl
  have hran : Ran s₂ := .program {} {} .fresh hdecl heval
  have hcall : s₂.check callWithString = (.ok (.int, callWithStringChecked), (s₂.check callWithString).2) := rfl
  exact ⟨s₂, _, hran, hcall, fun config sink => (Ran.scopes_agree hran hcall config sink).1⟩

end Session

end Gradual

import Gradual.Proofs.Consistency
import Gradual.Proofs.Preservation
import Gradual.Session

/-!
# Soundness of checked programs

What a program that passes the checker can end in. Preservation says it for
any discipline; here are the disciplines that fit the language. With equality,
or `?` as the only supertype, casts keep what they promise unless they go to a
function type. A cast to a function type hands the function on as it is, so
what it promises holds only if the function's own type fits the target. Names
do not depend on any of this: a program finds them all (`run_finds_names`).
-/

namespace Gradual

/-! ## From a check to a run -/

theorem Elab.of_checkProgram {σ σ' : CheckState} {e e' : Expr} {ty : Ty}
    (h : e.checkProgram σ = .ok (ty, e') σ') : ∃ σ₁, Elab σ e ty e' σ₁ ∧ σ'.context = σ₁.context := by
  obtain ⟨⟨ty₁, e₁⟩, σ₁, hcheck, h⟩ := bind_eq_ok h
  obtain ⟨u, σ₂, hemit, h⟩ := bind_eq_ok h
  cases hemit
  cases h
  exact ⟨σ₁, .of_check e hcheck, rfl⟩

def World.start (lets : List String) : World :=
  { lets := fun _ => lets }

theorem World.Sees.start (D : Discipline) (lets : List String) :
    (World.start lets).Sees D [] (Place.layers ⟨[], lets⟩ {}) :=
  .global ⟨.inr rfl, .refl _ _, fun _ => rfl⟩

theorem State.Fine.start (D : Discipline) (lets : List String) (sink : Sink) :
    State.Fine D (World.start lets) { sink } := by
  refine ⟨rfl, fun c => ?_, by simp [World.start], by simp⟩
  cases c with
  | nil => exact .nil
  | cons i c => simp [ScopeTree.scope, World.start]

theorem Machine.Fine.start {D : Discipline} {e e' : Expr} {ty : Ty} {σ : CheckState}
    (hcheck : e.checkProgram { context := {} } = .ok (ty, e') σ) (hlex : ¬ D.Blind → e.lexical = true)
    (hcasts : ∀ t ∈ e'.castTargets, D.casts t) (sink : Sink) :
    Machine.Fine D σ.context.current ty (World.start e.lets) ⟨.eval e' [], [], 0, { sink }⟩ := by
  obtain ⟨σ₁, hE, hσ⟩ := Elab.of_checkProgram hcheck
  have hready : Ready D ⟨[], e.lets⟩ { context := {} } e := ⟨rfl, fun _ hx => hx, hlex⟩
  rw [hσ]
  exact .eval (.start D e.lets sink) (.start D e.lets) (hE.typed _ hready hcasts) .nil

theorem Interpreter.fresh_run_ends {D : Discipline} {goal : Scope Ty} {goalTy : Ty} {W : World} {e : Expr}
    {sink : Sink} (hm : Machine.Fine D goal goalTy W ⟨.eval e [], [], 0, { sink }⟩) (config : Config)
    (hh : ∀ m, Machine.Reaches config.maxCallDepth ⟨.eval e [], [], 0, { sink }⟩ m → Honest D m) :
    Ends D goal goalTy W ((fresh config sink).run e).1 ((fresh config sink).run e).2.state :=
  run_ends (i := fresh config sink) hm hh

/-! ## Errors -/

theorem RuntimeError.Fine.kind_not_scope {D : Discipline} {err : RuntimeError} (h : err.Fine D) :
    err.kind ∉ ["UnboundName", "Redeclaration", "NotTypechecked"] := by
  cases err with
  | scope cause => exact h.elim
  | unchecked _ => exact h.elim
  | castFailed _ _ _ | divisionByZero | stackOverflow _ | io _ | internal _ _ _ => simp [RuntimeError.kind]

theorem RuntimeError.Fine.kind_ne_internal {D : Discipline} {err : RuntimeError} (h : err.Fine D)
    (hD : ¬ D.Blind) : err.kind ≠ "Internal" := by
  cases err with
  | scope cause => exact h.elim
  | internal _ _ _ => exact absurd h hD
  | castFailed _ _ _ | divisionByZero | stackOverflow _ | io _ | unchecked _ => simp [RuntimeError.kind]

theorem RuntimeError.Fine.kind_not_mem {D : Discipline} {err : RuntimeError} (h : err.Fine D) (hD : ¬ D.Blind) :
    err.kind ∉ ["Internal", "NotTypechecked", "UnboundName", "Redeclaration"] := by
  have hinternal := h.kind_ne_internal hD
  have hscope := h.kind_not_scope
  simp only [List.mem_cons, List.not_mem_nil, or_false, not_or] at hscope ⊢
  exact ⟨hinternal, hscope.2.2, hscope.1, hscope.2.1⟩

theorem RuntimeError.Fine.kind_ne_cast {D : Discipline} {err : RuntimeError} (h : err.Fine D)
    (hD : ∀ t, ¬ D.casts t) : err.kind ≠ "Cast" := by
  cases err with
  | scope cause => exact h.elim
  | castFailed _ _ target => exact absurd h (hD target)
  | internal _ _ _ | unchecked _ | divisionByZero | stackOverflow _ | io _ => simp [RuntimeError.kind]

/-! ## Disciplines -/

theorem honest_of_casts {D : Discipline}
    (h : ∀ (cells : Cells) v t, D.casts t → (cells.typeOf v).consistent t = true → D.fits (cells.typeOf v) t)
    (m : Machine) : Honest D m := by
  unfold Honest
  split
  · exact h _ _ _
  · trivial

theorem Cells.typeOf_ne_dyn (cells : Cells) (v : Value) : cells.typeOf v ≠ .dyn := by
  cases v <;> simp [Cells.typeOf]

namespace Discipline

/-- A value has exactly the type that is expected. -/
def exact (casts : Ty → Prop) : Discipline where
  fits ρ τ := ρ = τ
  casts
  refl _ := rfl
  sharp := .inr ⟨id, id, id, fun h => ⟨_, _, h, fun _ => id, fun _ => id⟩⟩

/-- A value has exactly the type that is expected, unless that is `?`. -/
def core (casts : Ty → Prop) : Discipline where
  fits ρ τ := τ = .dyn ∨ ρ = τ
  casts
  refl _ := .inr rfl
  sharp := by
    refine .inr ⟨?_, ?_, ?_, ?_⟩
    · exact fun h => h.resolve_left (by simp)
    · exact fun h => h.resolve_left (by simp)
    · exact fun h => h.resolve_left (by simp)
    · exact fun h => ⟨_, _, h.resolve_left (by simp), fun _ => id, fun _ => id⟩

/-- A value may stand wherever its type fits, and any cast may occur. -/
def subsuming : Discipline where
  fits := Ty.Fits
  casts _ := True
  refl _ := .refl
  sharp := by
    refine .inr ⟨?_, ?_, ?_, ?_⟩
    · intro ρ h; cases h; rfl
    · intro ρ h; cases h; rfl
    · intro ρ cell h; cases h; rfl
    · intro ρ dom cod h
      obtain ⟨a, b, rfl, hdom, hcod⟩ := h.fn_inv
      exact ⟨a, b, rfl, fun _ hπ => hπ.trans hdom, fun _ hπ => hπ.trans hcod⟩

/-- Types promise nothing and any cast may occur: only names are followed. -/
def blind : Discipline where
  fits _ _ := True
  casts _ := True
  refl _ := trivial
  sharp := .inl fun _ _ => trivial

theorem blind_blind : blind.Blind :=
  fun _ _ => trivial

theorem blind_honest (m : Machine) : Honest blind m :=
  honest_of_casts (fun _ _ _ _ _ => trivial) m

theorem exact_not_blind (casts : Ty → Prop) : ¬ (exact casts).Blind :=
  fun h => absurd (h .bool .int) (by simp [exact])

theorem core_not_blind (casts : Ty → Prop) : ¬ (core casts).Blind :=
  fun h => absurd (h .bool .int) (by simp [core])

theorem subsuming_not_blind : ¬ subsuming.Blind := by
  intro h
  have : Ty.Fits .bool .int := h .bool .int
  cases this

theorem core_honest {casts : Ty → Prop} (hfn : ∀ t, casts t → t.isFn = false) (m : Machine) :
    Honest (core casts) m := by
  refine honest_of_casts (fun cells v t ht hc => ?_) m
  by_cases hd : t = .dyn
  · exact .inl hd
  · exact .inr (Ty.eq_of_consistent (cells.typeOf_ne_dyn v) hd (hfn t ht) hc)

end Discipline

/-- Whatever becomes of its types, a program finds every name it was checked with. -/
theorem run_finds_names {e e' : Expr} {ty : Ty} {σ : CheckState}
    (hcheck : e.checkProgram { context := {} } = .ok (ty, e') σ) (config : Config) (sink : Sink)
    {err : RuntimeError} (herr : ((Interpreter.fresh config sink).run e').1 = .error err) :
    err.kind ∉ ["UnboundName", "Redeclaration", "NotTypechecked"] := by
  have hstart := Machine.Fine.start (D := Discipline.blind) hcheck (fun h => absurd Discipline.blind_blind h)
    (fun _ _ => trivial) sink
  obtain ⟨W, -, -, -, hfine⟩ := Interpreter.fresh_run_ends hstart config fun m _ => Discipline.blind_honest m
  exact (hfine err herr).kind_not_scope

/-! ## Programs without casts to function types -/

/-- A program whose casts all go to types other than function types ends as its
types say, and every cell holds a value of its type. -/
theorem run_sound_of_no_function_casts {e e' : Expr} {ty : Ty} {σ : CheckState} (hd : e.DistinctLets)
    (hcheck : e.checkProgram { context := {} } = .ok (ty, e') σ) (hfn : ∀ t ∈ e'.castTargets, t.isFn = false)
    (config : Config) (sink : Sink) :
    let out := (Interpreter.fresh config sink).run e'
    (∀ err, out.1 = .error err →
      err.kind ∉ ["Internal", "NotTypechecked", "UnboundName", "Redeclaration"] ∧
        (e'.casts = 0 → err.kind ≠ "Cast")) ∧
    (∀ v, out.1 = .ok v → ty = .dyn ∨ out.2.state.cells.typeOf v = ty) ∧
    ∀ cell ∈ out.2.state.cells, cell.ty ≠ .dyn → out.2.state.cells.typeOf cell.contents = cell.ty := by
  intro out
  let D := Discipline.core (· ∈ e'.castTargets)
  have hD : ¬ D.Blind := Discipline.core_not_blind _
  have hm := Machine.Fine.start (D := D) hcheck (fun _ => hd.lexical) (fun _ ht => ht) sink
  obtain ⟨W, -, hst, hok, herr⟩ := Interpreter.fresh_run_ends hm config fun m _ => Discipline.core_honest hfn m
  refine ⟨fun err he => ⟨(herr err he).kind_not_mem hD, fun hz => (herr err he).kind_ne_cast ?_⟩,
    fun v hv => ?_, fun cell hcell hne => ?_⟩
  · show ∀ t, t ∉ e'.castTargets
    rw [Expr.castTargets_eq_nil hz]; simp
  · rw [hst.typeOf v]; exact (hok v hv).1.fits
  · rw [hst.typeOf]; exact (hst.cells cell hcell).fits.resolve_left hne

def countUp : Expr :=
  .seq [
    .decl "r" none (.alloc (.const (.int 1)) none),
    .decl "d" (some .dyn) (.var "r"),
    .decl "bump" none (.lam "n" .int none (.assign (.var "r") (.binary .add (.deref (.var "r")) (.var "n")))),
    .app (.var "bump") (.const (.int 41)),
    .deref (.var "r")]

def countUpChecked : Expr :=
  .seq [
    .decl "r" none (.alloc (.const (.int 1)) (some .int)),
    .decl "d" (some .dyn) (.cast .dyn (.var "r")),
    .decl "bump" none
      (.lam "n" .int (some (.ref .int))
        (.assign (.var "r") (.binary .add (.deref (.var "r")) (.var "n")))),
    .app (.var "bump") (.const (.int 41)),
    .deref (.var "r")]

theorem run_sound_of_no_function_casts_countUp :
    countUp.DistinctLets ∧ (∃ σ, countUp.checkProgram { context := {} } = .ok (.int, countUpChecked) σ) ∧
      (∀ t ∈ countUpChecked.castTargets, t.isFn = false) ∧
      ∀ config sink v, ((Interpreter.fresh config sink).run countUpChecked).1 = .ok v →
        ((Interpreter.fresh config sink).run countUpChecked).2.state.cells.typeOf v = .int := by
  refine ⟨by decide, ⟨_, rfl⟩, by decide, fun config sink v hv => ?_⟩
  have h : Ty.int = .dyn ∨ _ :=
    (run_sound_of_no_function_casts (e := countUp) (by decide) rfl (by decide) config sink).2.1 v hv
  exact h.resolve_left (by simp)

/-! ## Casts to function types -/

/-- In the run of `e`, a cast to a function type hands on a function that does
not fit it. -/
def Misfit (limit : Nat) (sink : Sink) (e : Expr) : Prop :=
  ∃ f dom cod K d s,
    Machine.Reaches limit ⟨.eval e [], [], 0, { sink }⟩
        ⟨.done (.ok (.closure f)), .cast (.fn dom cod) :: K, d, s⟩ ∧
      (Ty.fn f.paramTy f.resultTy).consistent (.fn dom cod) = true ∧
      ¬ (Ty.fn f.paramTy f.resultTy).Fits (.fn dom cod)

theorem honest_of_not_misfit {limit : Nat} {sink : Sink} {e : Expr} (h : ¬ Misfit limit sink e) {m : Machine}
    (hm : Machine.Reaches limit ⟨.eval e [], [], 0, { sink }⟩ m) : Honest Discipline.subsuming m := by
  unfold Honest
  split
  · rename_i v target K d s
    intro _ hc
    show (s.cells.typeOf v).Fits target
    cases target with
    | dyn => exact .dyn
    | fn dom cod =>
      cases v with
      | closure f =>
        by_contra hfit
        exact h ⟨f, dom, cod, K, d, s, hm, hc, hfit⟩
      | _ => simp [Cells.typeOf, Ty.consistent] at hc
    | _ =>
      rw [Ty.eq_of_consistent (s.cells.typeOf_ne_dyn v) (by simp) rfl hc]
      exact .refl
  · trivial

/-- Only a cast to a function type can do that. -/
theorem not_misfit_of_no_function_casts {e e' : Expr} {ty : Ty} {σ : CheckState} (hd : e.DistinctLets)
    (hcheck : e.checkProgram { context := {} } = .ok (ty, e') σ) (hfn : ∀ t ∈ e'.castTargets, t.isFn = false)
    (limit : Nat) (sink : Sink) : ¬ Misfit limit sink e' := by
  rintro ⟨f, dom, cod, K, d, s, hr, -, -⟩
  have hm := Machine.Fine.start (D := .core (· ∈ e'.castTargets)) hcheck (fun _ => hd.lexical)
    (fun _ ht => ht) sink
  obtain ⟨W, -, h⟩ := hm.reaches hr fun m _ => Discipline.core_honest hfn m
  cases h with
  | value _ hc _ hK =>
    obtain ⟨_, _, _, _, _, _, hfit, _⟩ := hK.top hc (by simp)
    cases hfit with
    | cast ht => exact absurd (hfn _ ht) (by simp [Ty.isFn])

/-- A program finds its names, and it ends as its types say unless some cast in its
run handed on a function that does not fit the target. -/
theorem run_sound_or_misfit {e e' : Expr} {ty : Ty} {σ : CheckState} (hd : e.DistinctLets)
    (hcheck : e.checkProgram { context := {} } = .ok (ty, e') σ) (config : Config) (sink : Sink) :
    let out := (Interpreter.fresh config sink).run e'
    (∀ err, out.1 = .error err → err.kind ∉ ["UnboundName", "Redeclaration", "NotTypechecked"]) ∧
    (Misfit config.maxCallDepth sink e' ∨
      (∀ err, out.1 = .error err → err.kind ≠ "Internal") ∧
      ∀ v, out.1 = .ok v → (out.2.state.cells.typeOf v).consistent ty = true) := by
  intro out
  refine ⟨fun err he => run_finds_names hcheck config sink he, ?_⟩
  by_cases hm : Misfit config.maxCallDepth sink e'
  · exact .inl hm
  · have hstart := Machine.Fine.start (D := Discipline.subsuming) hcheck (fun _ => hd.lexical)
      (fun _ _ => trivial) sink
    obtain ⟨W, -, hst, hok, herr⟩ := Interpreter.fresh_run_ends hstart config fun m => honest_of_not_misfit hm
    refine .inr ⟨fun err he => ?_, fun v hv => ?_⟩
    · exact (herr err he).kind_ne_internal Discipline.subsuming_not_blind
    · have hfits : (W.tyOf v).Fits ty := (hok v hv).1.fits
      rw [hst.typeOf v]; exact hfits.consistent

/-- The machine stops within `fuel` steps, and it and all that it comes to pass the test. -/
def Machine.passes (limit : Nat) (test : Machine → Bool) : Nat → Machine → Bool
  | 0, _ => false
  | fuel + 1, m =>
    test m &&
      match step limit m with
      | .running m' => passes limit test fuel m'
      | .stopped _ => true

theorem Machine.Reaches.passes {limit fuel : Nat} {test : Machine → Bool} {m m' : Machine}
    (hr : Reaches limit m m') (h : m.passes limit test fuel = true) : test m' = true := by
  induction hr generalizing fuel with
  | refl m =>
    cases fuel with
    | zero => cases h
    | succ fuel =>
      rw [Machine.passes, Bool.and_eq_true] at h
      exact h.1
  | head hs _ ih =>
    cases fuel with
    | zero => cases h
    | succ fuel =>
      rw [Machine.passes, hs, Bool.and_eq_true] at h
      exact ih h.2

/-- A function that is about to pass a cast fits its target. -/
def Machine.castFits : Machine → Bool
  | ⟨.done (.ok (.closure f)), .cast target :: _, _, _⟩ => decide ((Ty.fn f.paramTy f.resultTy).Fits target)
  | _ => true

theorem not_misfit_of_passes {limit : Nat} {sink : Sink} {e : Expr} (fuel : Nat)
    (h : Machine.passes limit Machine.castFits fuel ⟨.eval e [], [], 0, { sink }⟩ = true) :
    ¬ Misfit limit sink e := by
  rintro ⟨f, dom, cod, K, d, s, hr, -, hfit⟩
  exact hfit (of_decide_eq_true (hr.passes h))

def forgetResult : Expr :=
  .seq [
    .decl "f" (some (.fn .int .dyn)) (.lam "x" .int none (.binary .add (.var "x") (.const (.int 1)))),
    .decl "n" (some .int) (.app (.var "f") (.const (.int 41))),
    .var "n"]

def forgetResultChecked : Expr :=
  .seq [
    .decl "f" (some (.fn .int .dyn))
      (.cast (.fn .int .dyn) (.lam "x" .int (some .int) (.binary .add (.var "x") (.const (.int 1))))),
    .decl "n" (some .int) (.cast .int (.app (.var "f") (.const (.int 41)))),
    .var "n"]

theorem run_sound_or_misfit_forgetResult :
    let out := (Interpreter.fresh {} {}).run forgetResultChecked
    forgetResult.DistinctLets ∧
      (∃ σ, forgetResult.checkProgram { context := {} } = .ok (.int, forgetResultChecked) σ) ∧
      ¬ Misfit ({} : Config).maxCallDepth {} forgetResultChecked ∧
      out.1 = .ok (.int 42) ∧ (out.2.state.cells.typeOf (.int 42)).consistent .int = true := by
  intro out
  have hd : forgetResult.DistinctLets := by decide
  have hfit : ¬ Misfit ({} : Config).maxCallDepth {} forgetResultChecked :=
    not_misfit_of_passes 40 (by decide +kernel)
  have hout : out.1 = .ok (.int 42) := by
    simp only [out]
    rw [Interpreter.run, Interpreter.evaluate_eq]
    rfl
  obtain ⟨-, hsound⟩ := run_sound_or_misfit (e := forgetResult) hd rfl {} {}
  exact ⟨hd, ⟨_, rfl⟩, hfit, hout, (hsound.resolve_left hfit).2 _ hout⟩

def addToString : Expr :=
  .seq [
    .decl "f" (some (.fn .dyn .int)) (.lam "x" .int none (.binary .add (.var "x") (.const (.int 1)))),
    .app (.var "f") (.const (.str "a"))]

def addToStringChecked : Expr :=
  .seq [
    .decl "f" (some (.fn .dyn .int))
      (.cast (.fn .dyn .int) (.lam "x" .int (some .int) (.binary .add (.var "x") (.const (.int 1))))),
    .app (.var "f") (.cast .dyn (.const (.str "a")))]

/-- The cast of the function passes, and so does that of the argument. -/
theorem addToString_run_internal :
    addToString.DistinctLets ∧
      (∃ σ, addToString.checkProgram { context := {} } = .ok (.int, addToStringChecked) σ) ∧
      ∀ sink, ((Interpreter.fresh {} sink).run addToStringChecked).1 =
        .error (.internal "int operand" "string" "a") := by
  refine ⟨by decide, ⟨_, rfl⟩, fun sink => ?_⟩
  rw [Interpreter.run, Interpreter.evaluate_eq]
  rfl

end Gradual

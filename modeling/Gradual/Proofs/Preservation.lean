import Gradual.Eval.Interpreter
import Gradual.Proofs.Invariant

/-!
# Preservation

Every step of a machine that runs a typed tree keeps the invariant up, in a
world that may have grown (`Machine.Fine.step`), so every run does
(`Machine.Fine.reaches`). A cast is the one step that types do not vouch for:
that a value which passes fits the target is asked of the run (`Honest`).
-/

namespace Gradual

/-! ## Actions on typed values -/

/-- The action gives something with `Q`, or an error that a typed tree may end
in; the state is fine either way. -/
def Fares {α : Type} (D : Discipline) (W : World) (Q : α → Prop) : EStateM.Result RuntimeError State α → Prop
  | .ok a s => s.Fine D W ∧ Q a
  | .error err s => s.Fine D W ∧ err.Fine D

section
variable {D : Discipline} {W : World} {v : Value} {s : State}

theorem HasTy.of_blind {ty : Ty} (h : HasTy D W v ty) (hD : D.Blind) (ty' : Ty) : HasTy D W v ty' :=
  ⟨h.fine, hD _ _⟩

theorem HasTy.subsume {ty ty' : Ty} (h : HasTy D W v ty) (hs : ∀ ρ, D.fits ρ ty → D.fits ρ ty') :
    HasTy D W v ty' :=
  ⟨h.fine, hs _ h.fits⟩

theorem HasTy.ofConstant (D : Discipline) (W : World) (c : Constant) : HasTy D W (.ofConstant c) c.ty := by
  cases c <;> exact ⟨trivial, D.refl _⟩

open EvalM in
theorem HasTy.asBool (h : HasTy D W v .bool) (hs : s.Fine D W) : Fares D W (fun _ => True) (asBool v s) := by
  cases v with
  | bool b => exact ⟨hs, trivial⟩
  | _ =>
    refine ⟨hs, by_contra fun hD => ?_⟩
    cases (D.sharp_of_not_blind hD).bool h.fits

open EvalM in
theorem HasTy.asInt (h : HasTy D W v .int) (hs : s.Fine D W) : Fares D W (fun _ => True) (asInt v s) := by
  cases v with
  | int n => exact ⟨hs, trivial⟩
  | _ =>
    refine ⟨hs, by_contra fun hD => ?_⟩
    cases (D.sharp_of_not_blind hD).int h.fits

open EvalM in
theorem HasTy.asClosure {dom cod : Ty} (h : HasTy D W v (.fn dom cod)) (hs : s.Fine D W) :
    Fares D W (fun c => v = .closure c) (asClosure v s) := by
  cases v with
  | closure c => exact ⟨hs, rfl⟩
  | _ =>
    refine ⟨hs, by_contra fun hD => ?_⟩
    obtain ⟨_, _, hv, -⟩ := (D.sharp_of_not_blind hD).fn h.fits
    cases hv

open EvalM in
theorem HasTy.asCell {cell : Ty} (h : HasTy D W v (.ref cell)) (hs : s.Fine D W) :
    Fares D W (fun i => v = .ref i) (asCell v s) := by
  cases v with
  | ref i => exact ⟨hs, rfl⟩
  | _ =>
    refine ⟨hs, by_contra fun hD => ?_⟩
    cases (D.sharp_of_not_blind hD).ref h.fits

theorem HasTy.cell_iff {i : Nat} {cell : Ty} (h : HasTy D W (.ref i) (.ref cell)) (v : Value) :
    HasTy D W v (W.cells.getD i .dyn) ↔ HasTy D W v cell := by
  by_cases hD : D.Blind
  · exact ⟨fun hv => hv.of_blind hD _, fun hv => hv.of_blind hD _⟩
  · have := (D.sharp_of_not_blind hD).ref h.fits
    have : W.cells.getD i .dyn = cell := by simpa [World.tyOf] using this
    rw [this]

theorem HasTy.closure_fits {f : Closure} {dom cod : Ty} (h : HasTy D W (.closure f) (.fn dom cod)) :
    (∀ ρ, D.fits ρ dom → D.fits ρ f.paramTy) ∧ ∀ ρ, D.fits ρ f.resultTy → D.fits ρ cod := by
  by_cases hD : D.Blind
  · exact ⟨fun _ _ => hD _ _, fun _ _ => hD _ _⟩
  · obtain ⟨a, b, hf, hdom, hcod⟩ := (D.sharp_of_not_blind hD).fn h.fits
    cases hf
    exact ⟨hdom, hcod⟩

/-! ## Operators -/

theorem Fares.bind {α β : Type} {Q : α → Prop} {R : β → Prop} {x : EvalM α} {g : α → EvalM β}
    (hx : Fares D W Q (x s)) (hg : ∀ a s, s.Fine D W → Q a → Fares D W R (g a s)) :
    Fares D W R ((x >>= g) s) := by
  simp only [Bind.bind, EStateM.bind]
  cases h : x s with
  | ok a s => rw [h] at hx; exact hg a s hx.1 hx.2
  | error err s => rw [h] at hx; exact hx

theorem operateInt_fares {op : BinOp} (hop : op.isEquality = false) (a b : Int64) (hs : s.Fine D W) :
    Fares D W (HasTy D W · op.resultTy) (EvalM.operateInt op a b s) := by
  cases op with
  | eq | ne => cases hop
  | div | mod =>
    unfold EvalM.operateInt
    by_cases hb : b = 0
    · simp only [hb, ite_true]; exact ⟨hs, trivial⟩
    · simp only [hb, ite_false]; exact ⟨hs, trivial, D.refl _⟩
  | _ => exact ⟨hs, trivial, D.refl _⟩

theorem operate_fares {op : BinOp} {a b : Value} {lTy rTy ty : Ty} (hop : op.Takes lTy rTy ty)
    (ha : HasTy D W a lTy) (hb : HasTy D W b rTy) (hs : s.Fine D W) :
    Fares D W (HasTy D W · ty) (EvalM.operate op a b s) := by
  rcases hop with ⟨hop, rfl⟩ | ⟨hop, rfl, rfl, rfl⟩
  · cases op with
    | eq | ne => exact ⟨hs, trivial, D.refl _⟩
    | _ => cases hop
  · have main : Fares D W (HasTy D W · op.resultTy)
        ((EvalM.asInt a >>= fun a => EvalM.asInt b >>= fun b => EvalM.operateInt op a b) s) :=
      (ha.asInt hs).bind fun _ _ hs _ => (hb.asInt hs).bind fun _ _ hs _ => operateInt_fares hop _ _ hs
    cases op with
    | eq | ne => cases hop
    | _ => exact main

/-! ## Names, functions, output and casts -/

theorem resolve_fares {c : Chain} {Γ : List Layer} {x : String} {ty : Ty} (hc : W.Sees D c Γ)
    (hx : Context.findIn x (Γ.map Layer.scope) = some ty) (hclear : ¬ D.Blind → Clear x Γ) (hs : s.Fine D W) :
    Fares D W (HasTy D W · ty) (EvalM.resolve c x s) := by
  obtain ⟨ty', hw, hty⟩ := hc.find? hx hclear
  obtain ⟨v, hfind, hv⟩ := hs.find? hw
  have hr : EvalM.resolve c x s = .ok v s := by
    simp only [EvalM.resolve, get_bind_run, ScopeTree.resolve, hfind]
    rfl
  rw [hr]
  refine ⟨hs, ?_⟩
  by_cases hD : D.Blind
  · exact hv.of_blind hD _
  · rw [← hty hD]; exact hv

theorem World.Sees.freeze {c : Chain} {Γ : List Layer} (h : W.Sees D c Γ) :
    W.Sees D c (Γ.map Layer.freeze) := by
  have shows_freeze : ∀ {c l}, W.Shows D c l → W.Shows D c l.freeze :=
    fun h => ⟨h.lets, h.grown, fun hl => by cases hl⟩
  induction h with
  | global hl => exact .global (shows_freeze hl)
  | inner hi hc hl _ ih => exact .inner hi hc (shows_freeze hl) ih

theorem makeClosure_fares {c : Chain} {Γ : List Layer} {x : String} {xTy ret : Ty} {body : Expr}
    {lets : List String} {sb : Scope Ty} (hc : W.Sees D c Γ)
    (hb : Typed D ⟨Γ.map Layer.freeze, lets⟩ ⟨[(x, xTy)]⟩ body ret sb) (hs : s.Fine D W) :
    Fares D W (HasTy D W · (.fn xTy ret)) (EvalM.makeClosure c x xTy (some ret) body s) := by
  have hf : Closure.Fine D W ⟨s.closures, x, xTy, ret, body, c⟩ :=
    ⟨Γ.map Layer.freeze, lets, sb, hc.freeze, live_freeze Γ, hb⟩
  exact ⟨hs.congr rfl rfl, hf, D.refl _⟩

theorem read_fares {i : Nat} {cell : Ty} (hi : HasTy D W (.ref i) (.ref cell)) (hs : s.Fine D W) :
    Fares D W (HasTy D W · cell) (EvalM.read i s) :=
  ⟨hs, (hi.cell_iff _).mp (hs.contents hi.fine)⟩

theorem write_fares {i : Nat} {cell : Ty} (hi : HasTy D W (.ref i) (.ref cell)) (hv : HasTy D W v cell)
    (hs : s.Fine D W) : Fares D W (HasTy D W · (.ref cell)) (EvalM.write i v s) :=
  ⟨hs.write ((hi.cell_iff v).mpr hv), hi⟩

theorem print_fares (v : Value) (hs : s.Fine D W) :
    Fares D W (HasTy D W · .unit) (EvalM.print v s) := by
  simp only [EvalM.print]
  split
  · exact ⟨hs.congr rfl rfl, trivial, D.refl _⟩
  · exact ⟨hs.congr rfl rfl, trivial⟩

theorem castTo_fares {target : Ty} (hv : v.Fine D W) (ht : D.casts target)
    (honest : (s.cells.typeOf v).consistent target = true → D.fits (s.cells.typeOf v) target)
    (hs : s.Fine D W) : Fares D W (HasTy D W · target) (EvalM.castTo target v s) := by
  simp only [EvalM.castTo, get_bind_run]
  split
  · rename_i hc
    refine ⟨hs, hv, ?_⟩
    rw [← hs.typeOf]; exact honest hc
  · exact ⟨hs.congr rfl rfl, ht⟩

end

/-! ## New scopes, bindings and cells -/

section
variable {D : Discipline} {W W' : World} {c : Chain} {Γ : List Layer} {goal : Scope Ty} {goalTy : Ty}

theorem World.Sees.newer (h : W.Sees D c Γ) (hle : W.LeAt D (some W.scopes.inner.size) W') :
    W'.Sees D c Γ := by
  refine h.away hle (by simp) fun i hi he => ?_
  have := h.lt_size i hi
  have : i = W.scopes.inner.size := by simpa using he
  omega

theorem Accepts.newer {K : List Frame} {P : Place} {s : Scope Ty} {ty : Ty}
    (h : Accepts D W goal goalTy K c P s ty) (hs : W.Sees D c Γ)
    (hle : W.LeAt D (some W.scopes.inner.size) W') : Accepts D W' goal goalTy K c P s ty :=
  h.mono hle fun i hi => ⟨_, rfl, Nat.le_of_lt (hs.lt_size i (List.mem_of_mem_head? hi))⟩

theorem World.Sees.grow (h : W.Sees D c Γ) (s : Scope Ty) (lets : List String) :
    (W.grow c s lets).Sees D (W.scopes.inner.size :: c) (Place.layers ⟨Γ, lets⟩ s) := by
  have hnew : (W.grow c s lets).scopes.scope (W.scopes.inner.size :: c) = s :=
    ScopeTree.scope_grow_new _ c s rfl
  refine .inner (by simp [World.grow]) h.lt_size ⟨.inr ?_, ?_, fun _ => hnew⟩ (h.newer (W.grow_le D c s lets))
  · simp [World.grow]
  · rw [hnew]; exact .refl _ _

theorem World.Sees.here {P : Place} {s : Scope Ty} (h : W.Sees D c (P.layers s)) :
    W.Shows D c ⟨s, P.lets, true⟩ := by
  obtain ⟨Γ, lets⟩ := P
  cases h with
  | global hl => exact hl
  | inner _ _ hl _ => exact hl

theorem World.Sees.declare {P : Place} {s : Scope Ty} {x : String} {ty : Ty} (h : W.Sees D c (P.layers s))
    (hle : W.LeAt D c.head? (W.declare c x ty)) : (W.declare c x ty).Sees D c (P.layers (s.insert x ty)) := by
  have hhere : (W.declare c x ty).Shows D c ⟨s.insert x ty, P.lets, true⟩ := by
    have hnew : (W.declare c x ty).scopes.scope c = s.insert x ty := by
      rw [World.declare, ScopeTree.scope_modify h.has, h.here.live rfl]
    exact ⟨h.here.lets, by rw [hnew]; exact .refl _ _, fun _ => hnew⟩
  obtain ⟨Γ, lets⟩ := P
  cases h with
  | global _ => exact .global hhere
  | @inner i _ _ _ hi hc _ hΓ =>
    refine .inner (Nat.lt_of_lt_of_le hi hle.size) hc hhere (hΓ.away hle (by simp) ?_)
    intro j hj he
    have := hc j hj
    have : j = i := by simpa using he
    omega

end

/-! ## Steps -/

def Lands (D : Discipline) (goal : Scope Ty) (goalTy : Ty) (W : World) (m : Machine) : Prop :=
  ∃ W', W.Le D W' ∧ m.Fine D goal goalTy W'

/-- If the machine is at a cast that passes, the value fits the target. -/
def Honest (D : Discipline) : Machine → Prop
  | ⟨.done (.ok v), .cast target :: _, _, s⟩ =>
    D.casts target → (s.cells.typeOf v).consistent target = true → D.fits (s.cells.typeOf v) target
  | _ => True

section
variable {D : Discipline} {W : World} {c : Chain} {P : Place} {s s' : Scope Ty} {ty : Ty} {st : State}
  {K : List Frame} {d : Nat} {goal : Scope Ty} {goalTy : Ty}

theorem Machine.Fine.lands {m : Machine} (h : m.Fine D goal goalTy W) : Lands D goal goalTy W m :=
  ⟨W, .refl D W, h⟩

theorem Fares.andThen {α : Type} {Q : α → Prop} {r : EStateM.Result RuntimeError State α}
    {next : α → State → Machine} (hr : Fares D W Q r)
    (hnext : ∀ a st, State.Fine D W st → Q a → Lands D goal goalTy W (next a st)) :
    Lands D goal goalTy W (Machine.andThen K d r next) := by
  cases r with
  | ok a st => exact hnext a st hr.1 hr.2
  | error err st => exact (Machine.Fine.error hr.1 hr.2).lands

theorem Fares.hand {r : EStateM.Result RuntimeError State Value} (hr : Fares D W (HasTy D W · ty) r)
    (hc : W.Sees D c (P.layers s)) (hK : Accepts D W goal goalTy K c P s ty) :
    Lands D goal goalTy W (Machine.hand K d r) :=
  hr.andThen fun _ _ hst hv => (Machine.Fine.value hst hc hv hK).lands

theorem visit_lands {e : Expr} (hst : st.Fine D W) (hc : W.Sees D c (P.layers s)) (he : Typed D P s e ty s')
    (hK : Accepts D W goal goalTy K c P s' ty) : Lands D goal goalTy W (Machine.visit c K d st e) := by
  cases he with
  | const => exact (Machine.Fine.value hst hc (.ofConstant D W _) hK).lands
  | var hx hclear => exact (resolve_fares hc hx hclear hst).hand hc hK
  | binary hl hr hop => exact (Machine.Fine.eval hst hc hl (.frame (.right hr hop) hK)).lands
  | cond hcond ht he => exact (Machine.Fine.eval hst hc hcond (.frame (.branch ht he) hK)).lands
  | lam hb => exact (makeClosure_fares hc hb hst).hand hc hK
  | app hf ha => exact (Machine.Fine.eval hst hc hf (.frame (.argument ha) hK)).lands
  | seqNil => exact (Machine.Fine.value hst hc (.ofConstant D W .unit) (.frame .seqDone hK)).lands
  | seqOne h =>
    exact (Machine.Fine.value hst hc (.ofConstant D W .unit) (.frame (.seqMore (.seqOne h)) hK)).lands
  | seqMore h hs =>
    exact (Machine.Fine.value hst hc (.ofConstant D W .unit) (.frame (.seqMore (.seqMore h hs)) hK)).lands
  | decl hv hx hl => exact (Machine.Fine.eval hst hc hv (.frame (.declare hx hl) hK)).lands
  | assign ht hv => exact (Machine.Fine.eval hst hc ht (.frame (.assigned hv) hK)).lands
  | deref ht => exact (Machine.Fine.eval hst hc ht (.frame .deref hK)).lands
  | alloc hv => exact (Machine.Fine.eval hst hc hv (.frame .allocate hK)).lands
  | print hv => exact (Machine.Fine.eval hst hc hv (.frame .print hK)).lands
  | cast he ht => exact (Machine.Fine.eval hst hc he (.frame (.cast ht) hK)).lands

/-! ## Steps in which the world grows -/

theorem branch_lands {e : Expr} {lets : List String} {sb : Scope Ty} (hst : st.Fine D W)
    (hc : W.Sees D c (P.layers s)) (he : Typed D ⟨P.layers s, lets⟩ {} e ty sb)
    (hK : Accepts D W goal goalTy K c P s ty) :
    Lands D goal goalTy W (Machine.andThen K d (EvalM.openScope c {} st) fun inner st =>
      ⟨.eval e inner, K, d, st⟩) := by
  have hle := W.grow_le D c {} lets
  refine ⟨_, hle.toLe, ?_⟩
  show Machine.Fine D goal goalTy _ ⟨.eval e (st.scopes.inner.size :: c), K, d, _⟩
  rw [hst.size]
  exact .eval (hst.grow c lets .nil) (hc.grow {} lets) he (.exit (hc.newer hle) hc.lt_size (hK.newer hc hle))

theorem call_lands {f : Closure} {dom cod : Ty} {v : Value} (hst : st.Fine D W) (hc : W.Sees D c (P.layers s))
    (hf : HasTy D W (.closure f) (.fn dom cod)) (hv : HasTy D W v dom)
    (hK : Accepts D W goal goalTy K c P s cod) :
    Lands D goal goalTy W (Machine.andThen K d (EvalM.enter f v d st) fun scope st =>
      ⟨.eval f.body scope, .leave :: K, d + 1, st⟩) := by
  obtain ⟨Γ, lets, sb, hΓ, -, hbody⟩ := hf.fine
  obtain ⟨hdom, hcod⟩ := hf.closure_fits
  -- The body runs inside the scopes that the closure keeps, not inside those of the caller.
  have hle := W.grow_le D f.scope ⟨[(f.param, f.paramTy)]⟩ lets
  refine ⟨_, hle.toLe, ?_⟩
  show Machine.Fine D goal goalTy _ ⟨.eval f.body (st.scopes.inner.size :: f.scope), .leave :: K, d + 1, _⟩
  rw [hst.size]
  have hst' : State.Fine D W { st with log := st.log.push (.called f.param d) } := hst.congr rfl rfl
  refine .eval (hst'.grow f.scope lets (.cons ⟨rfl, hv.subsume hdom⟩ .nil)) (hΓ.grow _ lets) hbody ?_
  exact .leave (hc.newer hle) hc.lt_size hcod (hK.newer hc hle)

theorem declare_lands {x : String} {v : Value} (hst : st.Fine D W) (hc : W.Sees D c (P.layers s))
    (hx : s.binds x = false) (hl : x ∈ P.lets) (hv : HasTy D W v ty)
    (hK : Accepts D W goal goalTy K c P (s.insert x ty) .unit) :
    Lands D goal goalTy W (Machine.hand K d (EvalM.declare c x v st)) := by
  have hm : D.May (W.lets c.head?) x := hc.here.lets.imp_right fun he => by rw [he]; exact hl
  have hs : W.scopes.scope c = s := hc.here.live rfl
  rw [← hs] at hx
  have hle := W.declare_le hc.has hx hm ty
  refine ⟨_, hle.toLe, ?_⟩
  have hd : EvalM.declare c x v st = .ok .unit { st with scopes := st.scopes.modify (·.insert x v) c } := by
    simp only [EvalM.declare_eq, hst.binds c x, hx, Bool.false_eq_true, ite_false]
  rw [hd]
  refine .value (hst.declare hc.has hx hm hv) (hc.declare hle) ⟨trivial, D.refl _⟩ ?_
  exact hK.mono hle fun i hi => ⟨i, hi, Nat.le_refl i⟩

theorem allocate_lands {v : Value} (hst : st.Fine D W) (hc : W.Sees D c (P.layers s)) (hv : HasTy D W v ty)
    (hK : Accepts D W goal goalTy K c P s (.ref ty)) :
    Lands D goal goalTy W (Machine.hand K d (EvalM.allocate ty v st)) := by
  have hle := W.alloc_le D (some W.scopes.inner.size) ty
  have hsize : st.cells.size = W.cells.size := by rw [← hst.cellTys, Array.size_map]
  refine ⟨_, hle.toLe, .value (hst.alloc hv) (hc.newer hle) ⟨?_, ?_⟩ (hK.newer hc hle)⟩
  · show st.cells.size < (W.cells.push ty).size
    rw [hsize, Array.size_push]; omega
  · have : (W.alloc ty).tyOf (.ref st.cells.size) = .ref ty := by
      simp [World.tyOf, World.alloc, hsize]
    rw [this]; exact D.refl _

/-! ## One step, and every run -/

theorem resume_lands {f : Frame} {v : Value} {limit : Nat} {ty' : Ty} (hst : st.Fine D W)
    (hc : W.Sees D c (P.layers s)) (hv : HasTy D W v ty) (hf : FrameFits D W f c P s ty s' ty')
    (hK : Accepts D W goal goalTy K c P s' ty') (hh : Honest D ⟨.done (.ok v), f :: K, d, st⟩) :
    Lands D goal goalTy W (Machine.resume limit v K d st f) := by
  cases hf with
  | right hr hop => exact (Machine.Fine.eval hst hc hr (.frame (.operate hv hop) hK)).lands
  | operate ha hop => exact (operate_fares hop ha hv hst).hand hc hK
  | branch ht he =>
    refine (hv.asBool hst).andThen fun b st hst _ => ?_
    cases b with
    | true => exact branch_lands hst hc ht hK
    | false => exact branch_lands hst hc he hK
  | argument ha =>
    refine (hv.asClosure hst).andThen fun g st hst hg => ?_
    subst hg
    exact (Machine.Fine.eval hst hc ha (.frame (.call hv) hK)).lands
  | call hg =>
    unfold Machine.resume
    by_cases hd : d < limit
    · simp only [hd, ite_true]; exact call_lands hst hc hg hv hK
    · simp only [hd, ite_false]; exact ⟨W, .refl D W, .error hst trivial⟩
  | seqDone => exact (Machine.Fine.value hst hc hv hK).lands
  | seqMore hs =>
    cases hs with
    | seqOne h => exact (Machine.Fine.eval hst hc h (.frame .seqDone hK)).lands
    | seqMore h hs => exact (Machine.Fine.eval hst hc h (.frame (.seqMore hs) hK)).lands
  | declare hx hl => exact declare_lands hst hc hx hl hv hK
  | assigned he =>
    refine (hv.asCell hst).andThen fun i st hst hi => ?_
    subst hi
    exact (Machine.Fine.eval hst hc he (.frame (.write hv) hK)).lands
  | write hi => exact (write_fares hi hv hst).hand hc hK
  | deref =>
    refine (hv.asCell hst).andThen fun i st hst hi => ?_
    subst hi
    exact (read_fares hv hst).hand hc hK
  | allocate => exact allocate_lands hst hc hv hK
  | print => exact (print_fares v hst).hand hc hK
  | cast ht => exact (castTo_fares hv.fine ht (hh ht) hst).hand hc hK

theorem Machine.Fine.step {limit : Nat} {m m' : Machine} (h : m.Fine D goal goalTy W) (hh : Honest D m)
    (hm : m.step limit = .running m') : Lands D goal goalTy W m' := by
  cases h with
  | eval hst hc he hK =>
    cases hm
    exact visit_lands hst hc he hK
  | @value v c P s ty K d st hst hc hv hK =>
    cases K with
    | nil => cases hm
    | cons f K =>
      cases hm
      by_cases hf : f = .leave
      · subst hf
        obtain ⟨c, P, s, ty', hc, hty, hK⟩ := hK.caller
        exact (Machine.Fine.value hst hc (hv.subsume hty) hK).lands
      · obtain ⟨c, P, s, s', ty', hc, hfit, hK⟩ := hK.top hc hf
        exact resume_lands hst hc hv hfit hK hh
  | @error err K d st hst herr =>
    cases K with
    | nil => cases hm
    | cons f K =>
      cases hm
      cases f <;> exact (Machine.Fine.error hst herr).lands

theorem Machine.Fine.reaches {limit : Nat} {m m' : Machine} (hr : Machine.Reaches limit m m')
    (h : m.Fine D goal goalTy W) (hh : ∀ n, Machine.Reaches limit m n → Honest D n) :
    Lands D goal goalTy W m' := by
  -- Each step may need a world of its own.
  induction hr generalizing W with
  | refl m => exact h.lands
  | head hs _ ih =>
    obtain ⟨W₁, hle₁, h₁⟩ := h.step (hh _ (.refl _)) hs
    obtain ⟨W₂, hle₂, h₂⟩ := ih h₁ fun n hn => hh n (.head hs hn)
    exact ⟨W₂, hle₁.trans hle₂, h₂⟩

/-! ## Whole programs -/

/-- A program ends well in a world grown from `W`: with a value of type `goalTy`
and the global scope `goal`, or with an error that a typed tree may end in. -/
def Ends (D : Discipline) (goal : Scope Ty) (goalTy : Ty) (W : World) (r : Except RuntimeError Value)
    (st : State) : Prop :=
  ∃ W', W.Le D W' ∧ st.Fine D W' ∧
    (∀ v, r = .ok v → HasTy D W' v goalTy ∧ W'.scopes.global = goal) ∧ ∀ err, r = .error err → err.Fine D

theorem Accepts.last (h : Accepts D W goal goalTy [] c P s ty) (hc : W.Sees D c (P.layers s)) :
    ty = goalTy ∧ W.scopes.global = goal := by
  generalize hK : ([] : List Frame) = K at h
  induction h with
  | nil => exact ⟨rfl, hc.here.live rfl⟩
  | frame _ _ _ => cases hK
  | exit hs _ _ ih => exact ih hs hK
  | leave _ _ _ _ _ => cases hK

theorem Lands.ends {r : Except RuntimeError Value} (h : Lands D goal goalTy W ⟨.done r, [], d, st⟩) :
    Ends D goal goalTy W r st := by
  obtain ⟨W', hle, h⟩ := h
  refine ⟨W', hle, h.state, fun v hr => ?_, fun err hr => ?_⟩
  · subst hr
    cases h with
    | value _ hc hv hK =>
      obtain ⟨rfl, hg⟩ := hK.last hc
      exact ⟨hv, hg⟩
  · subst hr
    cases h with
    | error _ herr => exact herr

theorem Interpreter.run_ends {i : Interpreter} {e : Expr}
    (hm : Machine.Fine D goal goalTy W ⟨.eval e [], [], i.callDepth, i.state⟩)
    (hh : ∀ m, Machine.Reaches i.config.maxCallDepth ⟨.eval e [], [], i.callDepth, i.state⟩ m → Honest D m) :
    Ends D goal goalTy W (i.run e).1 (i.run e).2.state := by
  have hend := hm.reaches (Machine.eval_reaches e [] [] i.callDepth i.state) hh
  rw [Interpreter.run, Interpreter.evaluate_eq]
  cases hr : e.eval i.config.maxCallDepth i.callDepth [] i.state with
  | ok v st => rw [hr] at hend; exact hend.ends
  | error err st =>
    rw [hr] at hend
    obtain ⟨W', hle, hst', hok, herr⟩ := hend.ends
    exact ⟨W', hle, hst'.congr rfl rfl, hok, herr⟩

end

end Gradual

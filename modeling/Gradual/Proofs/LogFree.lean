import Gradual.Eval.Semantics
import Gradual.Proofs.CheckFootprint
import Gradual.Proofs.Matching

/-!
# The log is only written

Checking looks at the context and at nothing else of the state it is in, and
running at everything but the log. So a log may be emptied between two trees,
or kept, and both are checked and run as before. Of the context, any view will
do that is enough for the names of the tree (`check_sees`).
-/

namespace Gradual

section
variable {ε σ τ α β : Type} {view : σ → τ}

/-- The same answer, and states that look the same. -/
inductive Alike (view : σ → τ) : EStateM.Result ε σ α → EStateM.Result ε σ α → Prop where
  | ok {a s s'} (h : view s = view s') : Alike view (.ok a s) (.ok a s')
  | error {e s s'} (h : view s = view s') : Alike view (.error e s) (.error e s')

def LooksAt (view : σ → τ) (x : EStateM ε σ α) : Prop :=
  ∀ s s', view s = view s' → Alike view (x s) (x s')

namespace LooksAt

theorem pure (a : α) : LooksAt view (Pure.pure a : EStateM ε σ α) :=
  fun _ _ h => .ok h

theorem throw (e : ε) : LooksAt view (MonadExcept.throw e : EStateM ε σ α) :=
  fun _ _ h => .error h

theorem bind {x : EStateM ε σ α} {g : α → EStateM ε σ β} (hx : LooksAt view x)
    (hg : ∀ a, LooksAt view (g a)) : LooksAt view (x >>= g) := by
  intro s s' h
  have hxs := hx s s' h
  simp only [Bind.bind, EStateM.bind]
  generalize x s = r at hxs ⊢
  generalize x s' = r' at hxs ⊢
  cases hxs with
  | ok h₁ => exact hg _ _ _ h₁
  | error h₁ => exact .error h₁

end LooksAt

end

/-! ## Checking -/

/-- What `view` shows of a context is enough to look up and declare `names`,
there and in scopes inside it. -/
structure Sight {τ : Type} (names : List String) (view : Context → τ) : Prop where
  find? : ∀ {Γ Γ' x}, x ∈ names → view Γ = view Γ' → Γ.find? x = Γ'.find? x
  binds : ∀ {Γ Γ' x}, x ∈ names → view Γ = view Γ' → Γ.current.binds x = Γ'.current.binds x
  bind : ∀ {Γ Γ' x} (ty : Ty), x ∈ names → view Γ = view Γ' → view (Γ.bind x ty) = view (Γ'.bind x ty)
  push : ∀ {Γ Γ'}, view Γ = view Γ' → view Γ.push = view Γ'.push

namespace LooksAt

variable {τ α β : Type} {names : List String} {view : Context → τ}

theorem of_logsOnly {m : CheckM α} (h : LogsOnly m) : LooksAt (fun σ => view σ.context) m := by
  intro σ σ' hview
  cases h with
  | ok a h =>
    obtain ⟨log, hlog⟩ := h σ
    obtain ⟨log', hlog'⟩ := h σ'
    rw [hlog, hlog']
    exact .ok hview
  | error err h =>
    obtain ⟨log, hlog⟩ := h σ
    obtain ⟨log', hlog'⟩ := h σ'
    rw [hlog, hlog']
    exact .error hview

theorem thenLog {m : CheckM α} {g : α → CheckM β} (hm : LooksAt (fun σ => view σ.context) m)
    (hg : ∀ a, LogsOnly (g a)) : LooksAt (fun σ => view σ.context) (m >>= g) :=
  hm.bind fun a => of_logsOnly (hg a)

theorem resolve (hsight : Sight names view) {x : String} (hx : x ∈ names) :
    LooksAt (fun σ => view σ.context) (CheckM.resolve x) := by
  intro σ σ' hview
  simp only [CheckM.resolve, get_bind_run, Context.resolve, hsight.find? hx hview]
  cases σ'.context.find? x with
  | some ty => exact .ok hview
  | none => exact .error hview

theorem declare (hsight : Sight names view) {x : String} (hx : x ∈ names) (ty : Ty) :
    LooksAt (fun σ => view σ.context) (CheckM.declare x ty) := by
  intro σ σ' hview
  simp only [CheckM.declare, get_bind_run, Context.declare, Scope.declare, hsight.binds hx hview]
  cases σ'.context.current.binds x with
  | true => exact .error hview
  | false => exact .ok (hsight.bind ty hx hview)

theorem inNewScope (hsight : Sight names view) {added : List String} {m : CheckM α} (hadds : Adding added m)
    (hm : LooksAt (fun σ => view σ.context) m) : LooksAt (fun σ => view σ.context) (CheckM.inNewScope m) := by
  intro σ σ' hview
  have hback := hadds { σ with context := σ.context.push } trivial
  have hback' := hadds { σ' with context := σ'.context.push } trivial
  have halike := hm { σ with context := σ.context.push } { σ' with context := σ'.context.push }
    (hsight.push hview)
  simp only [CheckM.inNewScope]
  generalize m { σ with context := σ.context.push } = r at hback halike ⊢
  generalize m { σ' with context := σ'.context.push } = r' at hback' halike ⊢
  cases halike with
  | ok _ =>
    refine .ok ?_
    simp only [hback.pop, hback'.pop]
    exact hview
  | error _ =>
    obtain ⟨_, -, hback⟩ := hback
    obtain ⟨_, -, hback'⟩ := hback'
    refine .error ?_
    simp only [hback.pop, hback'.pop]
    exact hview

end LooksAt

mutual

theorem check_sees {τ : Type} {names : List String} {view : Context → τ} (hsight : Sight names view) :
    ∀ e : Expr, (∀ x ∈ e.names, x ∈ names) → LooksAt (fun σ => view σ.context) e.check
  | .const c, _ => .pure _
  | .var x, h => (LooksAt.resolve hsight (h x List.mem_cons_self)).bind fun _ => .pure _
  | .binary op l r, h => by
    simp only [Expr.gather, Expr.nameHere, List.nil_append, List.forall_mem_append] at h
    obtain ⟨hl, hr⟩ := h
    refine (check_sees hsight l hl).bind fun _ => (check_sees hsight r hr).thenLog fun _ => ?_
    by_cases hop : op.isEquality = true
    · simp only [hop, ite_true]
      exact (LogsOnly.requireConsistent _ _ _).bind fun _ => .pure _
    · simp only [hop]
      exact (LogsOnly.coerce _ _ _ _ _).bind fun _ => (LogsOnly.coerce _ _ _ _ _).bind fun _ => .pure _
  | .cond c t e, h => by
    simp only [Expr.gather, Expr.nameHere, List.nil_append, List.forall_mem_append] at h
    obtain ⟨hc, ht, he⟩ := h
    refine (check_sees hsight c hc).bind fun _ => (LooksAt.of_logsOnly (.coerce _ _ _ _ _)).bind fun _ => ?_
    refine (LooksAt.inNewScope hsight (check_adding t) (check_sees hsight t ht)).bind fun _ => ?_
    refine (LooksAt.inNewScope hsight (check_adding e) (check_sees hsight e he)).thenLog fun _ => ?_
    exact (LogsOnly.adjust _ _ _ _).bind fun _ => (LogsOnly.adjust _ _ _ _).bind fun _ => .pure _
  | .lam x xTy ret body, h => by
    obtain ⟨hx, hbody⟩ := List.forall_mem_cons.mp h
    have hadds := (Adding.declare x xTy).bind fun _ => check_adding body
    have hsees := (LooksAt.declare hsight hx xTy).bind fun _ => check_sees hsight body hbody
    refine (LooksAt.inNewScope hsight hadds hsees).thenLog fun _ => ?_
    exact (LogsOnly.coerce _ _ _ _ _).bind fun _ => .pure _
  | .app f a, h => by
    simp only [Expr.gather, Expr.nameHere, List.nil_append, List.forall_mem_append] at h
    obtain ⟨hf, ha⟩ := h
    refine (check_sees hsight f hf).bind fun _ => (check_sees hsight a ha).thenLog fun _ => ?_
    exact (LogsOnly.asFunction _ _ _).bind fun _ => (LogsOnly.coerce _ _ _ _ _).bind fun _ => .pure _
  | .seq es, h => (checkSeq_sees hsight .unit es h).bind fun _ => .pure _
  | .decl x ty v, h => by
    obtain ⟨hx, hv⟩ := List.forall_mem_cons.mp h
    refine (check_sees hsight v hv).bind fun _ => (LooksAt.of_logsOnly (.coerce _ _ _ _ _)).bind fun _ => ?_
    exact (LooksAt.declare hsight hx _).bind fun _ => .pure _
  | .assign t v, h => by
    simp only [Expr.gather, Expr.nameHere, List.nil_append, List.forall_mem_append] at h
    obtain ⟨ht, hv⟩ := h
    refine (check_sees hsight t ht).bind fun _ => (check_sees hsight v hv).thenLog fun _ => ?_
    exact (LogsOnly.asReference _ _ _ _).bind fun _ => (LogsOnly.coerce _ _ _ _ _).bind fun _ => .pure _
  | .deref t, h => (check_sees hsight t h).thenLog fun _ => (LogsOnly.asReference _ _ _ _).bind fun _ => .pure _
  | .alloc v _, h => (check_sees hsight v h).bind fun _ => .pure _
  | .print v, h => (check_sees hsight v h).bind fun _ => .pure _
  | .cast ty e, h => (check_sees hsight e h).bind fun _ => .pure _

theorem checkSeq_sees {τ : Type} {names : List String} {view : Context → τ} (hsight : Sight names view)
    (last : Ty) : ∀ es : List Expr, (∀ x ∈ Expr.gatherAll Expr.nameHere es, x ∈ names) →
      LooksAt (fun σ => view σ.context) (Expr.checkSeq last es)
  | [], _ => .pure _
  | e :: es, h => by
    obtain ⟨he, hes⟩ := List.forall_mem_append.mp h
    exact (check_sees hsight e he).bind fun _ => (checkSeq_sees hsight _ es hes).bind fun _ => .pure _

end

theorem check_looksAt (e : Expr) : LooksAt CheckState.context e.check := by
  have hsight : Sight e.names fun Γ : Context => Γ :=
    ⟨fun _ h => h ▸ rfl, fun _ h => h ▸ rfl, fun _ _ h => h ▸ rfl, fun h => h ▸ rfl⟩
  exact check_sees hsight e fun _ hx => hx

/-! ## Running -/

def State.unlogged (s : State) : State :=
  { s with log := #[] }

theorem mapBody_id_closure (f : Closure) : f.mapBody id = f := rfl

theorem Value.mapBody_id (v : Value) : v.mapBody id = v := by
  cases v <;> rfl

theorem Scope.map_mapBody_id (s : Scope Value) : s.map (Value.mapBody id) = s := by
  simp [Scope.map, Value.mapBody_id]

theorem State.matches_id_iff {s s' : State} : s.Matches id s' ↔ s.unlogged = s'.unlogged := by
  have hscopes : s.scopes.map (Value.mapBody id) = s.scopes := by
    have hmap : Scope.map (Value.mapBody id) = id := funext Scope.map_mapBody_id
    simp [ScopeTree.map, hmap]
  have hcells : s.cells.mapBody id = s.cells := by
    have hmap : Cell.mapBody id = id := funext fun cell => by simp [Cell.mapBody, Value.mapBody_id]
    simp [Cells.mapBody, hmap]
  constructor
  · rintro ⟨h₁, h₂, h₃, h₄⟩
    rw [hscopes] at h₁
    rw [hcells] at h₂
    simp [State.unlogged, h₁, h₂, h₃, h₄]
  · intro h
    simp only [State.unlogged, State.mk.injEq] at h
    exact ⟨by rw [hscopes, h.1], by rw [hcells, h.2.1], h.2.2.1.symm, h.2.2.2.1.symm⟩

namespace LooksAt

variable {α : Type}

/-- With all bodies as they are, matching states differ in their logs only. -/
theorem of_matches {g : α → α} {x y : EvalM α} (h : EvalM.Matches id g x y) (hg : ∀ a, g a = a) (hy : y = x) :
    LooksAt State.unlogged x := by
  subst hy
  intro s s' hs
  have hr := h s s' (State.matches_id_iff.mpr hs)
  generalize y s = r at hr ⊢
  generalize y s' = r' at hr ⊢
  cases hr with
  | ok h₁ => rw [hg]; exact .ok (State.matches_id_iff.mp h₁)
  | error h₁ => exact .error (State.matches_id_iff.mp h₁)

theorem of_matches_value {x y : EvalM Value} (h : EvalM.Matches id (Value.mapBody id) x y) (hy : y = x) :
    LooksAt State.unlogged x :=
  of_matches h Value.mapBody_id hy

theorem asBool (v : Value) : LooksAt State.unlogged (EvalM.asBool v) :=
  of_matches (.asBool v) (fun _ => rfl) (by rw [v.mapBody_id])

theorem asClosure (v : Value) : LooksAt State.unlogged (EvalM.asClosure v) :=
  of_matches (.asClosure v) mapBody_id_closure (by rw [v.mapBody_id])

theorem asCell (v : Value) : LooksAt State.unlogged (EvalM.asCell v) :=
  of_matches (.asCell v) (fun _ => rfl) (by rw [v.mapBody_id])

theorem openScope (c : Chain) (new : Scope Value) : LooksAt State.unlogged (EvalM.openScope c new) :=
  of_matches (.openScope c new) (fun _ => rfl) (by rw [new.map_mapBody_id])

theorem enter (f : Closure) (arg : Value) (d : Nat) : LooksAt State.unlogged (EvalM.enter f arg d) :=
  of_matches (.enter f arg d) (fun _ => rfl) (by rw [mapBody_id_closure, arg.mapBody_id])

end LooksAt

mutual

theorem evalWith_looksAt {call : Call} (hcall : ∀ f v, LooksAt State.unlogged (call f v)) (c : Chain) :
    ∀ e : Expr, LooksAt State.unlogged (e.evalWith call c)
  | .const k => .pure _
  | .var x => .of_matches_value (.resolve c x) rfl
  | .binary op l r => by
    refine (evalWith_looksAt hcall c l).bind fun a => (evalWith_looksAt hcall c r).bind fun b => ?_
    exact .of_matches_value (.operate op a b) (by rw [a.mapBody_id, b.mapBody_id])
  | .cond t l r => by
    refine (evalWith_looksAt hcall c t).bind fun v => (LooksAt.asBool v).bind fun b => ?_
    refine (LooksAt.openScope c {}).bind fun inner => ?_
    cases b with
    | true => exact evalWith_looksAt hcall inner l
    | false => exact evalWith_looksAt hcall inner r
  | .lam x xTy ret body => .of_matches_value (.makeClosure c x xTy ret body) rfl
  | .app f a => by
    refine (evalWith_looksAt hcall c f).bind fun v => (LooksAt.asClosure v).bind fun g => ?_
    exact (evalWith_looksAt hcall c a).bind fun arg => hcall g arg
  | .seq es => evalSeqWith_looksAt hcall c .unit es
  | .decl x _ v => by
    refine (evalWith_looksAt hcall c v).bind fun w => ?_
    exact .of_matches_value (.declare c x w) (by rw [w.mapBody_id])
  | .assign t v => by
    refine (evalWith_looksAt hcall c t).bind fun target => (LooksAt.asCell target).bind fun i => ?_
    refine (evalWith_looksAt hcall c v).bind fun w => ?_
    exact .of_matches_value (.write i w) (by rw [w.mapBody_id])
  | .deref t => by
    refine (evalWith_looksAt hcall c t).bind fun target => (LooksAt.asCell target).bind fun i => ?_
    exact .of_matches_value (.read i) rfl
  | .alloc v ty => by
    have hty : LooksAt State.unlogged (EvalM.cellTyOf ty) := .of_matches (.cellTyOf ty) (fun _ => rfl) rfl
    refine hty.bind fun ty => (evalWith_looksAt hcall c v).bind fun w => ?_
    exact .of_matches_value (.allocate ty w) (by rw [w.mapBody_id])
  | .print v => by
    refine (evalWith_looksAt hcall c v).bind fun w => ?_
    exact .of_matches_value (.print w) (by rw [w.mapBody_id])
  | .cast ty e => by
    refine (evalWith_looksAt hcall c e).bind fun w => ?_
    exact .of_matches_value (.castTo ty w) (by rw [w.mapBody_id])

theorem evalSeqWith_looksAt {call : Call} (hcall : ∀ f v, LooksAt State.unlogged (call f v)) (c : Chain)
    (last : Value) : ∀ es : List Expr, LooksAt State.unlogged (Expr.evalSeqWith call c last es)
  | [] => .pure _
  | e :: es => (evalWith_looksAt hcall c e).bind fun v => evalSeqWith_looksAt hcall c v es

end

theorem call_looksAt (limit left : Nat) (f : Closure) (v : Value) :
    LooksAt State.unlogged (Closure.call limit left f v) := by
  induction left generalizing f v with
  | zero => exact .throw _
  | succ left ih => exact (LooksAt.enter f v _).bind fun c => evalWith_looksAt ih c f.body

end Gradual

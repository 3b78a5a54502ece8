import Gradual.Proofs.Accumulation
import Gradual.Proofs.Elaboration
import Gradual.Proofs.Names

/-!
# What a check declares

A tree is checked in one scope, and the names that it declares there are added
in order, up to the first error. Branches and function bodies are checked in
scopes of their own, which are left again also when their check fails. So
nothing but the current scope changes (`check_adding`).
-/

namespace Gradual

open CheckM

/-! ## Contexts that gain names -/

namespace Context

/-- The current scope has gained the names `added`, in this order, and nothing
else has changed. -/
structure Adds (added : List String) (Γ Γ' : Context) : Prop where
  outer : Γ'.outer = Γ.outer
  own : Γ.current.GrownBy (· ∈ added) Γ'.current
  names : Γ'.current.names = added.reverse ++ Γ.current.names
  nodup : added.Nodup

variable {added more : List String} {Γ Γ' Γ'' : Context}

theorem Adds.of_eq (h : Γ' = Γ) : Γ.Adds [] Γ' := by
  subst h
  exact ⟨rfl, .refl _ _, rfl, .nil⟩

theorem Adds.fresh (h : Γ.Adds added Γ') {x : String} (hx : x ∈ added) : Γ.current.binds x = false :=
  h.own.fresh h.names hx

theorem Adds.binds (h : Γ.Adds added Γ') {x : String} (hx : x ∈ added) : Γ'.current.binds x = true := by
  rw [Scope.binds_iff, h.names]
  exact List.mem_append_left _ (List.mem_reverse.mpr hx)

theorem Adds.trans (h : Γ.Adds added Γ') (h' : Γ'.Adds more Γ'') : Γ.Adds (added ++ more) Γ'' := by
  refine ⟨h'.outer.trans h.outer, ?_, ?_, ?_⟩
  · have hown := h.own.mono fun x hx => List.mem_append_left more hx
    exact hown.trans (h'.own.mono fun x hx => List.mem_append_right added hx)
  · simp [h'.names, h.names]
  · refine List.nodup_append.mpr ⟨h.nodup, h'.nodup, fun x hx y hy hxy => ?_⟩
    subst hxy
    have hbound := h.binds hx
    rw [h'.fresh hy] at hbound
    cases hbound

theorem adds_bind {x : String} (hx : Γ.current.binds x = false) (ty : Ty) : Γ.Adds [x] (Γ.bind x ty) :=
  ⟨rfl, .insert hx (by simp) ty, rfl, by simp⟩

theorem Adds.pop (h : Γ.push.Adds added Γ') : Γ'.pop = Γ := by
  unfold Context.pop
  rw [h.outer]
  rfl

theorem Adds.find? (h : Γ.Adds added Γ') {x : String} (hx : x ∉ added) : Γ'.find? x = Γ.find? x := by
  unfold Context.find?
  simp only [findIn, h.own.find?_eq hx, h.outer]

theorem adds_accumulation :
    Accumulation (fun _ : CheckState => True) fun added σ σ' => σ.context.Adds added σ'.context :=
  ⟨fun _ _ => trivial, fun h h' => h.trans h'⟩

end Context

/-! ## Actions that only log -/

/-- The answer does not depend on the state, and at most the log changes. -/
inductive LogsOnly {α : Type} (m : CheckM α) : Prop where
  | ok (a : α) (h : ∀ σ, ∃ log, m σ = .ok a ⟨σ.context, log⟩)
  | error (err : TypeError) (h : ∀ σ, ∃ log, m σ = .error err ⟨σ.context, log⟩)

namespace LogsOnly

variable {α β : Type}

theorem pure (a : α) : LogsOnly (Pure.pure a : CheckM α) :=
  .ok a fun σ => ⟨σ.log, rfl⟩

theorem throw (err : TypeError) : LogsOnly (MonadExcept.throw err : CheckM α) :=
  .error err fun σ => ⟨σ.log, rfl⟩

theorem bind {m : CheckM α} {g : α → CheckM β} (hm : LogsOnly m) (hg : ∀ a, LogsOnly (g a)) :
    LogsOnly (m >>= g) := by
  cases hm with
  | error err h =>
    refine .error err fun σ => ?_
    obtain ⟨log, hlog⟩ := h σ
    exact ⟨log, by simp only [Bind.bind, EStateM.bind, hlog]⟩
  | ok a h =>
    cases hg a with
    | ok b h' =>
      refine .ok b fun σ => ?_
      obtain ⟨log, hlog⟩ := h σ
      obtain ⟨log', hlog'⟩ := h' ⟨σ.context, log⟩
      exact ⟨log', by simp only [Bind.bind, EStateM.bind, hlog, hlog']⟩
    | error err h' =>
      refine .error err fun σ => ?_
      obtain ⟨log, hlog⟩ := h σ
      obtain ⟨log', hlog'⟩ := h' ⟨σ.context, log⟩
      exact ⟨log', by simp only [Bind.bind, EStateM.bind, hlog, hlog']⟩

theorem insertCast (rule : CastRule) (target : Ty) (e : Expr) : LogsOnly (CheckM.insertCast rule target e) :=
  .ok (.cast target e) fun _ => ⟨_, rfl⟩

theorem adjust (rule : CastRule) (target found : Ty) (e : Expr) :
    LogsOnly (CheckM.adjust rule target found e) := by
  unfold CheckM.adjust
  by_cases h : found = target
  · rw [if_pos h]; exact .pure e
  · rw [if_neg h]; exact .insertCast rule target e

theorem requireConsistent (site : Site) (expected found : Ty) :
    LogsOnly (CheckM.requireConsistent site expected found) := by
  unfold CheckM.requireConsistent
  by_cases h : expected.consistent found = true
  · rw [if_pos h]; exact .pure _
  · rw [if_neg h]; exact .throw _

theorem coerce (rule : CastRule) (site : Site) (target found : Ty) (e : Expr) :
    LogsOnly (CheckM.coerce rule site target found e) :=
  (requireConsistent site target found).bind fun _ => adjust rule target found e

theorem asFunction (argTy fTy : Ty) (f : Expr) : LogsOnly (CheckM.asFunction argTy fTy f) := by
  cases fTy with
  | fn dom cod => exact .pure _
  | dyn => exact (insertCast _ _ _).bind fun _ => .pure _
  | _ => exact .throw _

theorem asReference (rule : CastRule) (cellTy ty : Ty) (e : Expr) :
    LogsOnly (CheckM.asReference rule cellTy ty e) := by
  cases ty with
  | ref cell => exact .pure _
  | dyn => exact (insertCast _ _ _).bind fun _ => .pure _
  | _ => exact .throw _

end LogsOnly

/-! ## Actions that declare -/

/-- The action adds just `names` to the current scope, or a first part of them
if it fails, and changes nothing else of the context. -/
abbrev Adding (names : List String) {α : Type} (m : CheckM α) : Prop :=
  Accumulates (fun _ : CheckState => True) (fun added σ σ' => σ.context.Adds added σ'.context) names m

namespace Adding

variable {α β : Type} {names more : List String} {m : CheckM α} {g : α → CheckM β}

theorem of_logsOnly (h : LogsOnly m) : Adding [] m := by
  intro σ _
  cases h with
  | ok a h =>
    obtain ⟨log, hlog⟩ := h σ
    rw [hlog]
    exact .of_eq rfl
  | error err h =>
    obtain ⟨log, hlog⟩ := h σ
    rw [hlog]
    exact ⟨[], List.prefix_rfl, .of_eq rfl⟩

theorem bind (hm : Adding names m) (hg : ∀ a, Adding more (g a)) : Adding (names ++ more) (m >>= g) :=
  Accumulates.bind Context.adds_accumulation hm hg

theorem andThen (hm : Adding names m) (hg : ∀ a, Adding [] (g a)) : Adding names (m >>= g) := by
  have h := hm.bind hg
  rwa [List.append_nil] at h

theorem thenLog (hm : Adding names m) (hg : ∀ a, LogsOnly (g a)) : Adding names (m >>= g) :=
  hm.andThen fun a => of_logsOnly (hg a)

theorem after (hm : LogsOnly m) (hg : ∀ a, Adding names (g a)) : Adding names (m >>= g) :=
  (of_logsOnly hm).bind hg

theorem resolve (x : String) : Adding [] (CheckM.resolve x) := by
  intro σ _
  simp only [CheckM.resolve, get_bind_run]
  cases σ.context.resolve x with
  | ok ty => exact .of_eq rfl
  | error e => exact ⟨[], List.prefix_rfl, .of_eq rfl⟩

theorem declare (x : String) (ty : Ty) : Adding [x] (CheckM.declare x ty) := by
  intro σ _
  simp only [CheckM.declare, get_bind_run, Context.declare, Scope.declare]
  by_cases hx : σ.context.current.binds x = true
  · simp only [hx, ite_true]
    exact ⟨[], List.nil_prefix, .of_eq rfl⟩
  · simp only [hx]
    exact Context.adds_bind (by simpa using hx) ty

theorem inNewScope (h : Adding names m) : Adding [] (CheckM.inNewScope m) := by
  intro σ _
  have hm := h { σ with context := σ.context.push } trivial
  simp only [CheckM.inNewScope]
  cases hr : m { σ with context := σ.context.push } with
  | ok a σ' =>
    rw [hr] at hm
    exact .of_eq hm.pop
  | error err σ' =>
    rw [hr] at hm
    obtain ⟨added, -, hadds⟩ := hm
    exact ⟨[], List.prefix_rfl, .of_eq hadds.pop⟩

end Adding

/-! ## Trees -/

mutual

theorem check_adding : ∀ e : Expr, Adding e.lets e.check
  | .const _ => .of_logsOnly (.pure _)
  | .var x => (Adding.resolve x).thenLog fun _ => .pure _
  | .binary op l r => by
    refine (check_adding l).bind fun _ => (check_adding r).thenLog fun _ => ?_
    by_cases hop : op.isEquality = true
    · simp only [hop, ite_true]
      exact (LogsOnly.requireConsistent _ _ _).bind fun _ => .pure _
    · simp only [hop]
      exact (LogsOnly.coerce _ _ _ _ _).bind fun _ => (LogsOnly.coerce _ _ _ _ _).bind fun _ => .pure _
  | .cond c t e => by
    refine (check_adding c).andThen fun _ => .after (.coerce _ _ _ _ _) fun _ => ?_
    refine (check_adding t).inNewScope.andThen fun _ => (check_adding e).inNewScope.thenLog fun _ => ?_
    exact (LogsOnly.adjust _ _ _ _).bind fun _ => (LogsOnly.adjust _ _ _ _).bind fun _ => .pure _
  | .lam x xTy ret body => by
    have hbody := (Adding.declare x xTy).bind fun _ => check_adding body
    exact hbody.inNewScope.thenLog fun _ => (LogsOnly.coerce _ _ _ _ _).bind fun _ => .pure _
  | .app f a => by
    refine (check_adding f).bind fun _ => (check_adding a).thenLog fun _ => ?_
    exact (LogsOnly.asFunction _ _ _).bind fun _ => (LogsOnly.coerce _ _ _ _ _).bind fun _ => .pure _
  | .seq es => (checkSeq_adding .unit es).thenLog fun _ => .pure _
  | .decl x ty v => by
    refine (check_adding v).bind fun _ => .after (.coerce _ _ _ _ _) fun _ => ?_
    exact (Adding.declare x _).thenLog fun _ => .pure _
  | .assign t v => by
    refine (check_adding t).bind fun _ => (check_adding v).thenLog fun _ => ?_
    exact (LogsOnly.asReference _ _ _ _).bind fun _ => (LogsOnly.coerce _ _ _ _ _).bind fun _ => .pure _
  | .deref t => (check_adding t).thenLog fun _ => (LogsOnly.asReference _ _ _ _).bind fun _ => .pure _
  | .alloc v _ => (check_adding v).thenLog fun _ => .pure _
  | .print v => (check_adding v).thenLog fun _ => .pure _
  | .cast ty e => (check_adding e).thenLog fun _ => .pure _

theorem checkSeq_adding (last : Ty) : ∀ es : List Expr, Adding (Expr.letsAll es) (Expr.checkSeq last es)
  | [] => .of_logsOnly (.pure _)
  | e :: es => (check_adding e).bind fun _ => (checkSeq_adding _ es).thenLog fun _ => .pure _

end

/-- A check changes the current scope only, and there it only adds names: those
that the tree declares in this scope, each of them once and none that was bound
before, or the first of them if the check fails. All other names, also those
declared in branches and function bodies, mean what they meant. -/
theorem check_declares (e : Expr) (Γ : Context) (log : Log) :
    let out := e.check ⟨Γ, log⟩
    let after := (finalState out).context
    after.outer = Γ.outer ∧
    (∀ x ty, Γ.current.find? x = some ty → after.current.find? x = some ty) ∧
    (∃ added, added <+: e.lets ∧ added.Nodup ∧ (∀ x ∈ added, Γ.current.binds x = false) ∧
      after.current.names = added.reverse ++ Γ.current.names ∧
      ∀ checked σ, out = .ok checked σ → added = e.lets) ∧
    ∀ x, x ∉ e.lets → after.find? x = Γ.find? x ∧ after.current.find? x = Γ.current.find? x := by
  intro out after
  obtain ⟨added, hp, hadds, hok⟩ := (check_adding e).final (s := ⟨Γ, log⟩) trivial
  have hadds : Γ.Adds added after := hadds
  refine ⟨hadds.outer, ?_, ⟨added, hp, hadds.nodup, ?_, hadds.names, hok⟩, ?_⟩
  · intro x ty hx
    exact hadds.own.find? hx
  · intro x hx
    exact hadds.fresh hx
  · intro x hx
    have hx : x ∉ added := fun hm => hx (hp.subset hm)
    exact ⟨hadds.find? hx, hadds.own.find?_eq hx⟩

def shadowAndMismatch : Expr :=
  .seq [
    .decl "a" none (.const (.int 1)),
    .cond (.const (.bool true)) (.decl "hidden" none (.var "a")) (.const .unit),
    .decl "b" none (.binary .add (.var "a") (.const (.str "s"))),
    .decl "c" none (.var "b")]

def insideGlobal : Context :=
  { current := ⟨[("k", .int)]⟩, outer := [⟨[("a", .string)]⟩] }

theorem check_declares_shadowAndMismatch :
    let out := shadowAndMismatch.check ⟨insideGlobal, #[]⟩
    let after := (finalState out).context
    shadowAndMismatch.lets = ["a", "b", "c"] ∧
      (∃ σ, out = .error (.mismatch (.operand .add) .int .string) σ) ∧
      after.current.names = ["a", "k"] ∧
      (∃ added, added <+: ["a", "b", "c"] ∧ ["a", "k"] = added.reverse ++ ["k"]) ∧
      after.current.find? "k" = some .int ∧ after.outer = [⟨[("a", .string)]⟩] ∧
      after.find? "hidden" = none := by
  intro out after
  obtain ⟨houter, hkeeps, ⟨added, hp, -, -, hnames, -⟩, hothers⟩ :=
    check_declares shadowAndMismatch insideGlobal #[]
  refine ⟨rfl, ⟨_, rfl⟩, rfl, ⟨added, hp, hnames⟩, hkeeps "k" .int rfl, houter, ?_⟩
  exact (hothers "hidden" (by decide)).1

end Gradual

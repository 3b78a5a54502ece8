import Gradual.Eval.Interpreter
import Gradual.Proofs.Accumulation
import Gradual.Proofs.Names

/-!
# Where evaluation writes

A tree is evaluated in one scope, and the names that it declares go there, in
the order in which it declares them. Branches and calls open scopes of their
own, so no other scope that is there changes, whatever closures are called and
wherever an error stops the run (`evalWith_declares`).
-/

namespace Gradual

/-! ## Scope trees that gain names in one scope -/

namespace ScopeTree

variable {V : Type}

/-- The scope `E` has gained the names `added`, in this order, and every other
scope of `t` is as it was. -/
structure Adds (E : Chain) (added : List String) (t t' : ScopeTree V) : Prop where
  size : t.inner.size ≤ t'.inner.size
  others : ∀ c, t.Has c → c.head? ≠ E.head? → t'.scope c = t.scope c
  own : (t.scope E).GrownBy (· ∈ added) (t'.scope E)
  names : (t'.scope E).names = added.reverse ++ (t.scope E).names

variable {E : Chain} {added more : List String} {t t' t'' : ScopeTree V}

theorem Adds.of_eq (h : t' = t) : t.Adds E [] t' := by
  subst h
  exact ⟨Nat.le_refl _, fun _ _ _ => rfl, .refl _ _, rfl⟩

theorem Adds.has (h : t.Adds E added t') {c : Chain} (hc : t.Has c) : t'.Has c :=
  fun i hi => Nat.lt_of_lt_of_le (hc i hi) h.size

theorem Adds.trans (h : t.Adds E added t') (h' : t'.Adds E more t'') : t.Adds E (added ++ more) t'' := by
  refine ⟨Nat.le_trans h.size h'.size, ?_, ?_, ?_⟩
  · intro c hc hne
    rw [h'.others c (h.has hc) hne, h.others c hc hne]
  · have hown := h.own.mono fun x hx => List.mem_append_left more hx
    exact hown.trans (h'.own.mono fun x hx => List.mem_append_right added hx)
  · simp [h'.names, h.names]

theorem adds_insert (hE : t.Has E) {x : String} (hx : (t.scope E).binds x = false) (v : V) :
    t.Adds E [x] (t.modify (·.insert x v) E) := by
  refine ⟨by simp, ?_, ?_, ?_⟩
  · intro c _ hne
    exact scope_modify_of_ne hne _
  · rw [scope_modify hE]
    exact .insert hx (by simp) v
  · simp [scope_modify hE]

theorem Adds.of_grow {c : Chain} {new : Scope V} (hE : t.Has E)
    (h : (t.grow c new).2.Adds (t.grow c new).1 added t') : t.Adds E [] t' := by
  have hsame : ∀ c', t.Has c' → t'.scope c' = t.scope c' := by
    intro c' hc'
    -- The scope that gains names is newer than all scopes of `t`, so it is none of them.
    have hgrown : (t.grow c new).2.Has c' := fun i hi => by
      have := hc' i hi
      simp only [size_grow]
      omega
    rw [h.others c' hgrown hc'.head_ne, scope_grow_old t c new hc'.head_ne]
  refine ⟨?_, fun c' hc' _ => hsame c' hc', ?_, ?_⟩
  · have := h.size
    simp only [size_grow] at this
    omega
  · rw [hsame E hE]
    exact .refl _ _
  · simp [hsame E hE]

theorem Adds.find?_scope (h : t.Adds E added t') {c : Chain} (hc : t.Has c) {x : String} (hx : x ∉ added) :
    (t'.scope c).find? x = (t.scope c).find? x := by
  by_cases hE : c.head? = E.head?
  · rw [scope_congr t' hE, scope_congr t hE]
    exact h.own.find?_eq hx
  · rw [h.others c hc hE]

theorem Adds.fresh (h : t.Adds E added t') {x : String} (hx : x ∈ added) : (t.scope E).binds x = false :=
  h.own.fresh h.names hx

theorem Adds.scope_of_nil (h : t.Adds E [] t') {c : Chain} (hc : t.Has c) : t'.scope c = t.scope c := by
  by_cases hE : c.head? = E.head?
  · obtain ⟨new, hnew, hnone⟩ := h.own
    have hempty : new = [] := by
      cases new with
      | nil => rfl
      | cons b new => exact absurd (hnone b List.mem_cons_self).1 (by simp)
    rw [hempty] at hnew
    rw [scope_congr t' hE, scope_congr t hE]
    exact congrArg Scope.mk hnew
  · exact h.others c hc hE

theorem Adds.find? (h : t.Adds E added t') {x : String} (hx : x ∉ added) :
    ∀ {c : Chain}, (∀ i ∈ c, i < t.inner.size) → t'.find? c x = t.find? c x
  | [], _ => h.find?_scope t.has_nil hx
  | i :: c, hc => by
    have hi : t.Has (i :: c) := has_cons.mpr (hc i List.mem_cons_self)
    simp only [ScopeTree.find?, h.find?_scope hi hx]
    rw [h.find? hx fun j hj => hc j (List.mem_cons_of_mem i hj)]

theorem adds_accumulation (E : Chain) :
    Accumulation (fun s : State => s.scopes.Has E) fun added s s' => s.scopes.Adds E added s'.scopes :=
  ⟨fun h hE => h.has hE, fun h h' => h.trans h'⟩

end ScopeTree

/-! ## Actions that declare -/

/-- In a state that has the scope `E`, the action adds just `names` to it, or a
first part of them if it fails. -/
def Declares (E : Chain) (names : List String) {α : Type} (x : EvalM α) : Prop :=
  ∀ s : State, s.scopes.Has E →
    match x s with
    | .ok _ s' => s.scopes.Adds E names s'.scopes
    | .error _ s' => ∃ added, added <+: names ∧ s.scopes.Adds E added s'.scopes

namespace Declares

variable {α β : Type} {E : Chain} {names more : List String} {x : EvalM α} {g : α → EvalM β}

theorem of_touching (h : Moving State.Touch x) : Declares E [] x := by
  intro s _
  have hs := h.scopes s
  cases hx : x s with
  | ok a s' =>
    rw [hx] at hs
    exact .of_eq hs
  | error err s' =>
    rw [hx] at hs
    exact ⟨[], List.prefix_rfl, .of_eq hs⟩

theorem iff_accumulates : Declares E names x ↔
    Accumulates (fun s : State => s.scopes.Has E) (fun added s s' => s.scopes.Adds E added s'.scopes)
      names x := by
  unfold Declares Accumulates
  refine forall_congr' fun s => imp_congr Iff.rfl ?_
  cases x s <;> exact Iff.rfl

theorem bind (hx : Declares E names x) (hg : ∀ a, Declares E more (g a)) :
    Declares E (names ++ more) (x >>= g) := by
  rw [iff_accumulates] at hx ⊢
  exact hx.bind (ScopeTree.adds_accumulation E) fun a => iff_accumulates.mp (hg a)

theorem andThen (hx : Declares E names x) (hg : ∀ a, Declares E [] (g a)) : Declares E names (x >>= g) := by
  have h := hx.bind hg
  rwa [List.append_nil] at h

theorem after (hx : Moving State.Touch x) (hg : ∀ a, Declares E names (g a)) : Declares E names (x >>= g) :=
  (of_touching hx).bind hg

theorem declare (E : Chain) (x : String) (v : Value) : Declares E [x] (EvalM.declare E x v) := by
  intro s hE
  rw [EvalM.declare_eq]
  by_cases hx : (s.scopes.scope E).binds x = true
  · simp only [hx, ite_true]
    exact ⟨[], List.nil_prefix, .of_eq rfl⟩
  · simp only [hx]
    exact ScopeTree.adds_insert hE (by simpa using hx) v

theorem opened {inside : Chain → EvalM β} (c : Chain) (new : Scope Value)
    (h : ∀ inner, Declares inner names (inside inner)) : Declares E [] (EvalM.openScope c new >>= inside) := by
  intro s hE
  have hinner : (s.scopes.grow c new).2.Has (s.scopes.grow c new).1 := by
    simp [ScopeTree.Has, ScopeTree.grow]
  have hs := h (s.scopes.grow c new).1 { s with scopes := (s.scopes.grow c new).2 } hinner
  simp only [Bind.bind, EStateM.bind, EvalM.openScope]
  cases hr : inside (s.scopes.grow c new).1 { s with scopes := (s.scopes.grow c new).2 } with
  | ok b s' =>
    rw [hr] at hs
    exact hs.of_grow hE
  | error err s' =>
    rw [hr] at hs
    obtain ⟨added, -, hadds⟩ := hs
    exact ⟨[], List.prefix_rfl, hadds.of_grow hE⟩

theorem final (hx : Declares E names x) {s : State} (hE : s.scopes.Has E) :
    ∃ added, added <+: names ∧ s.scopes.Adds E added (finalState (x s)).scopes ∧
      ∀ a s', x s = .ok a s' → added = names :=
  (iff_accumulates.mp hx).final hE

end Declares

/-! ## Trees and calls -/

mutual

theorem evalWith_declares {call : Call} (hcall : ∀ f arg E, Declares E [] (call f arg)) :
    ∀ (e : Expr) (scope : Chain), Declares scope e.lets (e.evalWith call scope)
  | .const _, _ => .of_touching (.pure _)
  | .var x, scope => .of_touching (.resolve scope x)
  | .binary op l r, scope =>
    (evalWith_declares hcall l scope).bind fun a =>
      (evalWith_declares hcall r scope).andThen fun b => .of_touching (.operate op a b)
  | .cond c t e, scope => by
    refine (evalWith_declares hcall c scope).andThen fun v => .after (.asBool v) fun b => ?_
    cases b with
    | true => exact .opened scope {} fun inner => evalWith_declares hcall t inner
    | false => exact .opened scope {} fun inner => evalWith_declares hcall e inner
  | .lam x xTy ret body, scope => .of_touching (.makeClosure scope x xTy ret body)
  | .app f a, scope =>
    (evalWith_declares hcall f scope).bind fun v => .after (.asClosure v) fun c =>
      (evalWith_declares hcall a scope).andThen fun arg => hcall c arg scope
  | .seq es, scope => evalSeqWith_declares hcall es scope .unit
  | .decl x _ v, scope => (evalWith_declares hcall v scope).bind fun v => .declare scope x v
  | .assign t v, scope =>
    (evalWith_declares hcall t scope).bind fun target => .after (.asCell target) fun i =>
      (evalWith_declares hcall v scope).andThen fun v => .of_touching (.write i v)
  | .deref t, scope =>
    (evalWith_declares hcall t scope).andThen fun target =>
      .after (.asCell target) fun i => .of_touching (.read i)
  | .alloc v ty, scope =>
    .after (.cellTyOf ty) fun ty =>
      (evalWith_declares hcall v scope).andThen fun v => .of_touching (.allocate ty v)
  | .print v, scope => (evalWith_declares hcall v scope).andThen fun v => .of_touching (.print v)
  | .cast ty e, scope => (evalWith_declares hcall e scope).andThen fun v => .of_touching (.castTo ty v)

theorem evalSeqWith_declares {call : Call} (hcall : ∀ f arg E, Declares E [] (call f arg)) :
    ∀ (es : List Expr) (scope : Chain) (last : Value),
      Declares scope (Expr.letsAll es) (Expr.evalSeqWith call scope last es)
  | [], _, _ => .of_touching (.pure _)
  | e :: es, scope, _ => (evalWith_declares hcall e scope).bind fun v => evalSeqWith_declares hcall es scope v

end

theorem call_declares (limit : Nat) : ∀ (left : Nat) (f : Closure) (arg : Value) (E : Chain),
    Declares E [] (Closure.call limit left f arg)
  | 0, _, _, _ => .of_touching (.throw _)
  | left + 1, f, arg, E => by
    -- The body may declare what it likes: its scope is new.
    have hbody : ∀ inner, Declares inner f.body.lets (f.body.evalWith (Closure.call limit left) inner) :=
      evalWith_declares (call_declares limit left) f.body
    simp only [Closure.call, EvalM.enter, bind_assoc]
    exact .after (.emit _) fun _ => .opened f.scope _ hbody

theorem Machine.run_call (limit : Nat) (f : Closure) (arg : Value) (d : Nat) (s : State) :
    (run limit ⟨.done (.ok arg), [.call f], d, s⟩).state =
      finalState (Closure.call limit (limit - d) f arg s) := by
  rw [run_of_reaches (call_reaches (limit - d) d rfl f arg [] s)]
  cases Closure.call limit (limit - d) f arg s <;> simp [hand, Machine.andThen, run_done, finalState]

theorem Machine.run_call_scope (limit : Nat) (f : Closure) (arg : Value) (d : Nat) {s : State} {c : Chain}
    (hc : s.scopes.Has c) :
    (run limit ⟨.done (.ok arg), [.call f], d, s⟩).state.scopes.scope c = s.scopes.scope c := by
  obtain ⟨added, hp, hadds, -⟩ := (call_declares limit (limit - d) f arg c).final hc
  rw [List.prefix_nil.mp hp] at hadds
  rw [run_call]
  exact hadds.scope_of_nil hc

namespace Interpreter

theorem evaluate_adds (i : Interpreter) (e : Expr) {E : Chain} (hE : i.state.scopes.Has E) :
    ∃ added, added <+: e.lets ∧ i.state.scopes.Adds E added (i.evaluate e E).2.state.scopes ∧
      ∀ v, (i.evaluate e E).1 = .ok v → added = e.lets := by
  obtain ⟨added, hp, hadds, hok⟩ := (evalWith_declares (call_declares _ _) e E).final hE
  refine ⟨added, hp, ?_⟩
  rw [evaluate_eq, Expr.eval]
  cases h : e.evalWith (Closure.call i.config.maxCallDepth (i.config.maxCallDepth - i.callDepth)) E i.state with
  | ok v s =>
    rw [h] at hadds hok
    exact ⟨hadds, fun _ _ => hok v s rfl⟩
  | error err s =>
    rw [h] at hadds
    exact ⟨hadds, fun _ hv => by cases hv⟩

/-- Evaluation in the scope `E` binds names there that were not bound, which are
the names that the tree declares there, or the first of them if the run fails.
All other scopes stay as they were, so other names are found as before, and all
cells stay with their types. A call changes no scope that is there. -/
theorem evaluate_writes (i : Interpreter) (e : Expr) {E : Chain} (hE : i.state.scopes.Has E) :
    let out := i.evaluate e E
    let before := i.state
    let after := out.2.state
    (∀ c, before.scopes.Has c → c.head? ≠ E.head? →
      after.scopes.Has c ∧ after.scopes.scope c = before.scopes.scope c) ∧
    (∀ x v, (before.scopes.scope E).find? x = some v → (after.scopes.scope E).find? x = some v) ∧
    (∃ added, added <+: e.lets ∧ (∀ x ∈ added, (before.scopes.scope E).binds x = false) ∧
      (after.scopes.scope E).names = added.reverse ++ (before.scopes.scope E).names ∧
      ∀ v, out.1 = .ok v → added = e.lets) ∧
    (∀ c x, (∀ j ∈ c, j < before.scopes.inner.size) → x ∉ e.lets →
      after.scopes.find? c x = before.scopes.find? c x) ∧
    before.cells.KeptIn after.cells ∧
    ∀ (f : Closure) (arg : Value) (c : Chain), before.scopes.Has c →
      (Machine.run i.config.maxCallDepth ⟨.done (.ok arg), [.call f], i.callDepth, before⟩).state.scopes.scope c =
        before.scopes.scope c := by
  intro out before after
  obtain ⟨added, hp, hadds, hok⟩ := i.evaluate_adds e hE
  have hmoves : before.Moves after :=
    (Machine.reaches_run i.config.maxCallDepth ⟨.eval e E, [], i.callDepth, i.state⟩).moves
  refine ⟨?_, ?_, ⟨added, hp, ?_, hadds.names, hok⟩, ?_, hmoves.cells, ?_⟩
  · intro c hc hne
    exact ⟨hadds.has hc, hadds.others c hc hne⟩
  · intro x v hx
    exact hadds.own.find? hx
  · intro x hx
    exact hadds.fresh hx
  · intro c x hc hx
    exact hadds.find? (fun hm => hx (hp.subset hm)) hc
  · intro f arg c hc
    exact Machine.run_call_scope _ f arg _ hc

def double : Closure :=
  { id := 0, param := "n", paramTy := .int, resultTy := .int, scope := [0],
    body := .seq [.decl "twice" none (.binary .mul (.var "n") (.const (.int 2))), .var "twice"] }

def withDouble : Interpreter where
  state := {
    scopes := { global := ⟨[("double", .closure double)]⟩, inner := #[⟨[("k", .int 1)]⟩] }
    cells := #[⟨.int, .int 5⟩]
    closures := 1 }

def declareAndFail : Expr :=
  .seq [
    .decl "a" none (.app (.var "double") (.var "k")),
    .cond (.const (.bool true)) (.decl "hidden" none (.var "a")) (.const .unit),
    .decl "b" none (.binary .div (.var "a") (.const (.int 0)))]

theorem evaluate_writes_declareAndFail :
    let out := withDouble.evaluate declareAndFail [0]
    let after := out.2.state.scopes
    withDouble.state.scopes.Has [0] ∧ declareAndFail.lets = ["a", "b"] ∧
      (match out.1 with | .ok _ => none | .error err => some err) = some .divisionByZero ∧
      (after.scope [0]).names = ["a", "k"] ∧
      (∃ added, added <+: ["a", "b"] ∧ ["a", "k"] = added.reverse ++ ["k"]) ∧
      (after.scope [0]).find? "k" = some (.int 1) ∧
      after.scope [] = ⟨[("double", .closure double)]⟩ ∧ after.find? [0] "double" = some (.closure double) ∧
      (∃ now : Cell, out.2.state.cells[0]? = some now ∧ now.ty = .int) ∧
      (Machine.run 100000 ⟨.done (.ok (.int 3)), [.call double], 0, withDouble.state⟩).state.scopes.scope [0] =
        ⟨[("k", .int 1)]⟩ := by
  intro out after
  have hE : withDouble.state.scopes.Has [0] := by simp [ScopeTree.Has, withDouble]
  have hglobal : withDouble.state.scopes.Has [] := ScopeTree.has_nil _
  have herr : (match out.1 with | .ok _ => none | .error err => some err) = some .divisionByZero := by
    simp only [out]
    rw [evaluate_eq]
    decide +kernel
  have hnames : (after.scope [0]).names = ["a", "k"] := by
    simp only [after, out]
    rw [evaluate_eq]
    decide +kernel
  obtain ⟨hothers, hkeeps, ⟨added, hp, -, hadded, -⟩, hfind, hcells, hcall⟩ :=
    evaluate_writes withDouble declareAndFail hE
  refine ⟨hE, rfl, herr, hnames, ⟨added, hp, hnames ▸ hadded⟩, hkeeps "k" _ rfl, ?_, ?_, ?_, ?_⟩
  · exact (hothers [] hglobal (by simp)).2
  · exact hfind [0] "double" (by simp [withDouble]) (by decide)
  · exact hcells 0 _ rfl
  · exact hcall double (.int 3) [0] hE

end Interpreter

end Gradual

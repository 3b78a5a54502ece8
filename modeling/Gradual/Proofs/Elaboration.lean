import Gradual.Proofs.Consistency
import Gradual.Typing.Check

/-!
# Successful checks as derivations

`Elab σ e ty e' σ'` says, rule by rule, that checking `e` in the state `σ`
gives the type `ty`, the tree `e'` and the state `σ'`. What holds of every
accepted tree is proved by induction on such a derivation; `Elab.of_check`
and its converse `Elab.check` are the only places where the checker itself is
opened.
-/

namespace Gradual

open CheckM

theorem bind_eq_ok {ε σ α β : Type} {x : EStateM ε σ α} {f : α → EStateM ε σ β} {s s' : σ} {b : β}
    (h : (x >>= f) s = .ok b s') : ∃ a s₁, x s = .ok a s₁ ∧ f a s₁ = .ok b s' := by
  simp only [bind, EStateM.bind] at h
  cases hx : x s with
  | ok a s₁ => rw [hx] at h; exact ⟨a, s₁, rfl, h⟩
  | error e s₁ => rw [hx] at h; cases h

theorem bind_run {ε σ α β : Type} {x : EStateM ε σ α} {f : α → EStateM ε σ β} {s s₁ : σ} {a : α}
    {r : EStateM.Result ε σ β} (h : x s = .ok a s₁) (hf : f a s₁ = r) : (x >>= f) s = r := by
  simp only [bind, EStateM.bind, h, hf]

/-! ## The steps of the checker -/

def Expr.adjusted (target found : Ty) (e : Expr) : Expr :=
  if found = target then e else .cast target e

@[simp] theorem Expr.adjusted_self (ty : Ty) (e : Expr) : e.adjusted ty ty = e := by
  simp [Expr.adjusted]

def Context.bind (Γ : Context) (x : String) (ty : Ty) : Context :=
  { Γ with current := Γ.current.insert x ty }

namespace CheckState

def push (σ : CheckState) : CheckState :=
  { σ with context := σ.context.push }

def pop (σ : CheckState) : CheckState :=
  { σ with context := σ.context.pop }

def bind (σ : CheckState) (x : String) (ty : Ty) : CheckState :=
  { σ with context := { σ.context with current := σ.context.current.insert x ty } }

def inserted (rule : CastRule) (target : Ty) (σ : CheckState) : CheckState :=
  { σ with log := σ.log.push (.castInserted rule target) }

def adjusted (rule : CastRule) (target found : Ty) (σ : CheckState) : CheckState :=
  if found = target then σ else σ.inserted rule target

@[simp] theorem adjusted_context (rule : CastRule) (target found : Ty) (σ : CheckState) :
    (σ.adjusted rule target found).context = σ.context := by
  unfold adjusted inserted; split <;> rfl

@[simp] theorem adjusted_self (rule : CastRule) (ty : Ty) (σ : CheckState) : σ.adjusted rule ty ty = σ := by
  simp [adjusted]

end CheckState

theorem adjust_run (rule : CastRule) (target found : Ty) (e : Expr) (σ : CheckState) :
    adjust rule target found e σ =
      .ok (e.adjusted target found) (σ.adjusted rule target found) := by
  unfold adjust Expr.adjusted CheckState.adjusted
  split <;> rfl

theorem requireConsistent_eq_ok {site : Site} {expected found : Ty} {u : Unit} {σ σ' : CheckState}
    (h : requireConsistent site expected found σ = .ok u σ') :
    expected.consistent found = true ∧ σ' = σ := by
  unfold requireConsistent at h
  split at h
  · rename_i hc; cases h; exact ⟨hc, rfl⟩
  · cases h

theorem requireConsistent_run {expected found : Ty} (h : expected.consistent found = true) (site : Site)
    (σ : CheckState) : requireConsistent site expected found σ = .ok () σ := by
  unfold requireConsistent
  rw [if_pos h]; rfl

theorem coerce_eq_ok {rule : CastRule} {site : Site} {target found : Ty} {e e' : Expr}
    {σ σ' : CheckState} (h : coerce rule site target found e σ = .ok e' σ') :
    target.consistent found = true ∧ e' = e.adjusted target found ∧
      σ' = σ.adjusted rule target found := by
  obtain ⟨_, σ₁, h₁, h₂⟩ := bind_eq_ok h
  obtain ⟨hc, rfl⟩ := requireConsistent_eq_ok h₁
  rw [adjust_run] at h₂; cases h₂
  exact ⟨hc, rfl, rfl⟩

theorem coerce_run {target found : Ty} (h : target.consistent found = true) (rule : CastRule) (site : Site)
    (e : Expr) (σ : CheckState) :
    coerce rule site target found e σ = .ok (e.adjusted target found) (σ.adjusted rule target found) :=
  bind_run (requireConsistent_run h site σ) (adjust_run rule target found e σ)

theorem resolve_eq_ok {x : String} {ty : Ty} {σ σ' : CheckState} (h : CheckM.resolve x σ = .ok ty σ') :
    σ.context.find? x = some ty ∧ σ' = σ := by
  obtain ⟨_, σ₁, h₁, h₂⟩ := bind_eq_ok h
  cases h₁
  simp only [Context.resolve] at h₂
  cases hx : σ.context.find? x with
  | none => rw [hx] at h₂; cases h₂
  | some t => rw [hx] at h₂; cases h₂; exact ⟨rfl, rfl⟩

theorem resolve_run {x : String} {ty : Ty} {σ : CheckState} (h : σ.context.find? x = some ty) :
    CheckM.resolve x σ = .ok ty σ := by
  have hget : (get : CheckM CheckState) σ = .ok σ σ := rfl
  have hr : σ.context.resolve x = .ok ty := by simp only [Context.resolve, h]
  refine bind_run hget ?_
  rw [hr]; rfl

theorem declare_eq_ok {x : String} {ty : Ty} {u : Unit} {σ σ' : CheckState}
    (h : CheckM.declare x ty σ = .ok u σ') :
    σ.context.current.binds x = false ∧ σ' = σ.bind x ty := by
  obtain ⟨_, σ₁, h₁, h₂⟩ := bind_eq_ok h
  cases h₁
  simp only [Context.declare, Scope.declare] at h₂
  cases hx : σ.context.current.binds x with
  | true => rw [hx] at h₂; cases h₂
  | false => rw [hx] at h₂; cases h₂; exact ⟨rfl, rfl⟩

theorem declare_run {x : String} {σ : CheckState} (h : σ.context.current.binds x = false) (ty : Ty) :
    CheckM.declare x ty σ = .ok () (σ.bind x ty) := by
  have hget : (get : CheckM CheckState) σ = .ok σ σ := rfl
  have hd : σ.context.declare x ty = .ok (σ.bind x ty).context := by
    simp [Context.declare, Scope.declare, h, CheckState.bind]
  refine bind_run hget ?_
  rw [hd]; rfl

theorem inNewScope_eq_ok {α : Type} {m : CheckM α} {a : α} {σ σ' : CheckState}
    (h : inNewScope m σ = .ok a σ') : ∃ σ₁, m σ.push = .ok a σ₁ ∧ σ' = σ₁.pop := by
  unfold inNewScope at h
  split at h
  · rename_i a₁ σ₁ hm; cases h; exact ⟨σ₁, hm, rfl⟩
  · cases h

theorem inNewScope_run {α : Type} {m : CheckM α} {a : α} {σ σ₁ : CheckState} (h : m σ.push = .ok a σ₁) :
    inNewScope m σ = .ok a σ₁.pop := by
  simp only [CheckState.push] at h
  simp only [inNewScope, h, CheckState.pop]

/-! ## Derivations -/

inductive Elab : CheckState → Expr → Ty → Expr → CheckState → Prop where
  | const {σ c} : Elab σ (.const c) c.ty (.const c) σ
  | var {σ x ty} : σ.context.find? x = some ty → Elab σ (.var x) ty (.var x) σ
  | equality {σ σ₁ σ₂ op l r l' r' lTy rTy} :
      op.isEquality = true → Elab σ l lTy l' σ₁ → Elab σ₁ r rTy r' σ₂ →
      lTy.consistent rTy = true → Elab σ (.binary op l r) .bool (.binary op l' r') σ₂
  | integer {σ σ₁ σ₂ op l r l' r' lTy rTy} :
      op.isEquality = false → Elab σ l lTy l' σ₁ → Elab σ₁ r rTy r' σ₂ →
      Ty.int.consistent lTy = true → Ty.int.consistent rTy = true →
      Elab σ (.binary op l r) op.resultTy
        (.binary op (l'.adjusted .int lTy) (r'.adjusted .int rTy))
        ((σ₂.adjusted .operand .int lTy).adjusted .operand .int rTy)
  | cond {σ σ₁ σ₂ σ₃ c t e c' t' e' cTy tTy eTy} :
      Elab σ c cTy c' σ₁ → Ty.bool.consistent cTy = true →
      Elab (σ₁.adjusted .condition .bool cTy).push t tTy t' σ₂ →
      Elab σ₂.pop.push e eTy e' σ₃ →
      Elab σ (.cond c t e) (tTy.join eTy)
        (.cond (c'.adjusted .bool cTy) (t'.adjusted (tTy.join eTy) tTy)
          (e'.adjusted (tTy.join eTy) eTy))
        ((σ₃.pop.adjusted .thenBranch (tTy.join eTy) tTy).adjusted .elseBranch (tTy.join eTy) eTy)
  | lam {σ σ₁ x xTy ret body body' bodyTy} :
      Elab (σ.push.bind x xTy) body bodyTy body' σ₁ →
      (ret.getD bodyTy).consistent bodyTy = true →
      Elab σ (.lam x xTy ret body) (.fn xTy (ret.getD bodyTy))
        (.lam x xTy (some (ret.getD bodyTy)) (body'.adjusted (ret.getD bodyTy) bodyTy))
        (σ₁.pop.adjusted .body (ret.getD bodyTy) bodyTy)
  | app {σ σ₁ σ₂ f a f' a' aTy dom cod} :
      Elab σ f (.fn dom cod) f' σ₁ → Elab σ₁ a aTy a' σ₂ → dom.consistent aTy = true →
      Elab σ (.app f a) cod (.app f' (a'.adjusted dom aTy)) (σ₂.adjusted .argument dom aTy)
  | appDyn {σ σ₁ σ₂ f a f' a' aTy} :
      Elab σ f .dyn f' σ₁ → Elab σ₁ a aTy a' σ₂ →
      Elab σ (.app f a) .dyn (.app (.cast (.fn aTy .dyn) f') a') (σ₂.inserted .callee (.fn aTy .dyn))
  | seqNil {σ} : Elab σ (.seq []) .unit (.seq []) σ
  | seqOne {σ σ₁ e e' ty} : Elab σ e ty e' σ₁ → Elab σ (.seq [e]) ty (.seq [e']) σ₁
  | seqMore {σ σ₁ σ₂ e e' ty₁ d es es' ty} :
      Elab σ e ty₁ e' σ₁ → Elab σ₁ (.seq (d :: es)) ty (.seq es') σ₂ →
      Elab σ (.seq (e :: d :: es)) ty (.seq (e' :: es')) σ₂
  | decl {σ σ₁ x ty v v' vTy} :
      Elab σ v vTy v' σ₁ → (ty.getD vTy).consistent vTy = true →
      σ₁.context.current.binds x = false →
      Elab σ (.decl x ty v) .unit (.decl x ty (v'.adjusted (ty.getD vTy) vTy))
        ((σ₁.adjusted .declaration (ty.getD vTy) vTy).bind x (ty.getD vTy))
  | assign {σ σ₁ σ₂ t v t' v' cell vTy} :
      Elab σ t (.ref cell) t' σ₁ → Elab σ₁ v vTy v' σ₂ → cell.consistent vTy = true →
      Elab σ (.assign t v) (.ref cell) (.assign t' (v'.adjusted cell vTy))
        (σ₂.adjusted .assignValue cell vTy)
  | assignDyn {σ σ₁ σ₂ t v t' v' vTy} :
      Elab σ t .dyn t' σ₁ → Elab σ₁ v vTy v' σ₂ →
      Elab σ (.assign t v) (.ref vTy) (.assign (.cast (.ref vTy) t') v')
        (σ₂.inserted .assignTarget (.ref vTy))
  | deref {σ σ₁ t t' cell} : Elab σ t (.ref cell) t' σ₁ → Elab σ (.deref t) cell (.deref t') σ₁
  | derefDyn {σ σ₁ t t'} :
      Elab σ t .dyn t' σ₁ →
      Elab σ (.deref t) .dyn (.deref (.cast (.ref .dyn) t')) (σ₁.inserted .deref (.ref .dyn))
  | alloc {σ σ₁ v v' vTy cellTy} :
      Elab σ v vTy v' σ₁ → Elab σ (.alloc v cellTy) (.ref vTy) (.alloc v' (some vTy)) σ₁
  | print {σ σ₁ v v' vTy} : Elab σ v vTy v' σ₁ → Elab σ (.print v) .unit (.print v') σ₁
  | cast {σ σ₁ e e' eTy ty} : Elab σ e eTy e' σ₁ → Elab σ (.cast ty e) ty (.cast ty e') σ₁

/-- A callee or a target of unknown type is cast to fit what it is used with,
so the other operand needs no cast. -/
theorem coerce_same (rule : CastRule) (site : Site) (ty : Ty) (e : Expr) (σ : CheckState) :
    coerce rule site ty ty e σ = .ok e σ := by
  rw [coerce_run ty.consistent_refl, Expr.adjusted_self, CheckState.adjusted_self]

/-! ## From a check to its derivation, and back -/

mutual

theorem Elab.of_check : ∀ (e : Expr) {σ σ' : CheckState} {ty : Ty} {e' : Expr},
    e.check σ = .ok (ty, e') σ' → Elab σ e ty e' σ'
  | .const _, _, _, _, _, h => by cases h; exact .const
  | .var x, σ, _, _, _, h => by
    obtain ⟨ty, σ₁, h₁, h₂⟩ := bind_eq_ok h
    obtain ⟨hx, rfl⟩ := resolve_eq_ok h₁
    cases h₂
    exact .var hx
  | .binary op l r, σ, _, _, _, h => by
    obtain ⟨⟨lTy, l'⟩, σ₁, hl, h⟩ := bind_eq_ok h
    obtain ⟨⟨rTy, r'⟩, σ₂, hr, h⟩ := bind_eq_ok h
    have hl := Elab.of_check l hl
    have hr := Elab.of_check r hr
    cases hop : op.isEquality with
    | true =>
      simp only [hop, ite_true] at h
      obtain ⟨_, σ₃, h₁, h₂⟩ := bind_eq_ok h
      obtain ⟨hc, rfl⟩ := requireConsistent_eq_ok h₁
      cases h₂
      exact .equality hop hl hr hc
    | false =>
      simp only [hop, Bool.false_eq_true, ite_false] at h
      obtain ⟨_, σ₃, h₁, h⟩ := bind_eq_ok h
      obtain ⟨hc₁, rfl, rfl⟩ := coerce_eq_ok h₁
      obtain ⟨_, σ₄, h₂, h⟩ := bind_eq_ok h
      obtain ⟨hc₂, rfl, rfl⟩ := coerce_eq_ok h₂
      cases h
      exact .integer hop hl hr hc₁ hc₂
  | .cond c t e, σ, _, _, _, h => by
    obtain ⟨⟨cTy, c'⟩, σ₁, hc, h⟩ := bind_eq_ok h
    obtain ⟨_, σ₂, h₁, h⟩ := bind_eq_ok h
    obtain ⟨hcc, rfl, rfl⟩ := coerce_eq_ok h₁
    obtain ⟨⟨tTy, t'⟩, σ₃, h₂, h⟩ := bind_eq_ok h
    obtain ⟨σ₄, ht, rfl⟩ := inNewScope_eq_ok h₂
    obtain ⟨⟨eTy, e'⟩, σ₅, h₃, h⟩ := bind_eq_ok h
    obtain ⟨σ₆, he, rfl⟩ := inNewScope_eq_ok h₃
    obtain ⟨_, σ₇, h₄, h⟩ := bind_eq_ok h
    rw [adjust_run] at h₄; cases h₄
    obtain ⟨_, σ₈, h₅, h⟩ := bind_eq_ok h
    rw [adjust_run] at h₅; cases h₅
    cases h
    exact .cond (Elab.of_check c hc) hcc (Elab.of_check t ht) (Elab.of_check e he)
  | .lam x xTy ret body, σ, _, _, _, h => by
    obtain ⟨⟨bodyTy, body'⟩, σ₁, h₁, h⟩ := bind_eq_ok h
    obtain ⟨σ₂, h₂, rfl⟩ := inNewScope_eq_ok h₁
    obtain ⟨_, σ₃, hd, hb⟩ := bind_eq_ok h₂
    obtain ⟨-, rfl⟩ := declare_eq_ok hd
    obtain ⟨_, σ₄, h₃, h⟩ := bind_eq_ok h
    obtain ⟨hc, rfl, rfl⟩ := coerce_eq_ok h₃
    cases h
    exact .lam (Elab.of_check body hb) hc
  | .app f a, σ, _, _, _, h => by
    obtain ⟨⟨fTy, f'⟩, σ₁, hf, h⟩ := bind_eq_ok h
    obtain ⟨⟨aTy, a'⟩, σ₂, ha, h⟩ := bind_eq_ok h
    obtain ⟨⟨dom, cod, f''⟩, σ₃, hF, h⟩ := bind_eq_ok h
    obtain ⟨_, σ₄, h₁, h⟩ := bind_eq_ok h
    cases h
    have hf := Elab.of_check f hf
    have ha := Elab.of_check a ha
    cases fTy with
    | fn dom' cod' =>
      cases hF
      obtain ⟨hc, rfl, rfl⟩ := coerce_eq_ok h₁
      exact .app hf ha hc
    | dyn =>
      cases hF
      rw [coerce_same] at h₁; cases h₁
      exact .appDyn hf ha
    | _ => cases hF
  | .seq es, σ, _, _, _, h => by
    obtain ⟨⟨ty, es'⟩, σ₁, hs, h⟩ := bind_eq_ok h
    cases h
    exact Elab.of_checkSeq es hs fun _ => rfl
  | .decl x ty v, σ, _, _, _, h => by
    obtain ⟨⟨vTy, v'⟩, σ₁, hv, h⟩ := bind_eq_ok h
    obtain ⟨_, σ₂, h₁, h⟩ := bind_eq_ok h
    obtain ⟨hc, rfl, rfl⟩ := coerce_eq_ok h₁
    obtain ⟨_, σ₃, h₂, h⟩ := bind_eq_ok h
    obtain ⟨hd, rfl⟩ := declare_eq_ok h₂
    cases h
    exact .decl (Elab.of_check v hv) hc (by simpa using hd)
  | .assign t v, σ, _, _, _, h => by
    obtain ⟨⟨tTy, t'⟩, σ₁, ht, h⟩ := bind_eq_ok h
    obtain ⟨⟨vTy, v'⟩, σ₂, hv, h⟩ := bind_eq_ok h
    obtain ⟨⟨cell, t''⟩, σ₃, hR, h⟩ := bind_eq_ok h
    obtain ⟨_, σ₄, h₁, h⟩ := bind_eq_ok h
    cases h
    have ht := Elab.of_check t ht
    have hv := Elab.of_check v hv
    cases tTy with
    | ref cell' =>
      cases hR
      obtain ⟨hc, rfl, rfl⟩ := coerce_eq_ok h₁
      exact .assign ht hv hc
    | dyn =>
      cases hR
      rw [coerce_same] at h₁; cases h₁
      exact .assignDyn ht hv
    | _ => cases hR
  | .deref t, σ, _, _, _, h => by
    obtain ⟨⟨tTy, t'⟩, σ₁, ht, h⟩ := bind_eq_ok h
    obtain ⟨⟨cell, t''⟩, σ₂, hR, h⟩ := bind_eq_ok h
    cases h
    have ht := Elab.of_check t ht
    cases tTy with
    | ref cell' => cases hR; exact .deref ht
    | dyn => cases hR; exact .derefDyn ht
    | _ => cases hR
  | .alloc v _, σ, _, _, _, h => by
    obtain ⟨⟨vTy, v'⟩, σ₁, hv, h⟩ := bind_eq_ok h
    cases h
    exact .alloc (Elab.of_check v hv)
  | .print v, σ, _, _, _, h => by
    obtain ⟨⟨vTy, v'⟩, σ₁, hv, h⟩ := bind_eq_ok h
    cases h
    exact .print (Elab.of_check v hv)
  | .cast ty e, σ, _, _, _, h => by
    obtain ⟨⟨eTy, e'⟩, σ₁, he, h⟩ := bind_eq_ok h
    cases h
    exact .cast (Elab.of_check e he)

theorem Elab.of_checkSeq : ∀ (es : List Expr) {last : Ty} {σ σ' : CheckState} {ty : Ty}
    {es' : List Expr}, Expr.checkSeq last es σ = .ok (ty, es') σ' → (es = [] → last = .unit) →
      Elab σ (.seq es) ty (.seq es') σ'
  | [], _, _, _, _, _, h, hl => by cases h; rw [hl rfl]; exact .seqNil
  | [e], _, _, _, _, _, h, _ => by
    obtain ⟨⟨ty₁, e'⟩, σ₁, he, h⟩ := bind_eq_ok h
    cases h
    exact .seqOne (Elab.of_check e he)
  | e :: d :: es, _, _, _, _, _, h, _ => by
    obtain ⟨⟨ty₁, e'⟩, σ₁, he, h⟩ := bind_eq_ok h
    obtain ⟨⟨ty₂, es₂⟩, σ₂, hs, h⟩ := bind_eq_ok h
    cases h
    exact .seqMore (Elab.of_check e he) (Elab.of_checkSeq (d :: es) hs (by simp))

end

theorem checkSeq_of_check {e : Expr} {es es' : List Expr} {last ty : Ty} {σ σ' : CheckState}
    (h : (Expr.seq (e :: es)).check σ = .ok (ty, .seq es') σ') :
    Expr.checkSeq last (e :: es) σ = .ok (ty, es') σ' := by
  obtain ⟨⟨ty₁, es₁⟩, σ₁, hs, h⟩ := bind_eq_ok h
  cases h
  exact hs

theorem Elab.check {σ σ' : CheckState} {e e' : Expr} {ty : Ty} (h : Elab σ e ty e' σ') :
    e.check σ = .ok (ty, e') σ' := by
  induction h with
  | const | seqNil => rfl
  | var hx => exact bind_run (resolve_run hx) rfl
  | equality hop _ _ hc ihl ihr =>
    refine bind_run ihl (bind_run ihr ?_)
    simp only [hop, ite_true]
    exact bind_run (requireConsistent_run hc _ _) rfl
  | integer hop _ _ hl hr ihl ihr =>
    refine bind_run ihl (bind_run ihr ?_)
    simp only [hop, Bool.false_eq_true, ite_false]
    exact bind_run (coerce_run hl _ _ _ _) (bind_run (coerce_run hr _ _ _ _) rfl)
  | cond _ hc _ _ ihc iht ihe =>
    refine bind_run ihc (bind_run (coerce_run hc _ _ _ _) ?_)
    refine bind_run (inNewScope_run iht) (bind_run (inNewScope_run ihe) ?_)
    exact bind_run (adjust_run _ _ _ _ _) (bind_run (adjust_run _ _ _ _ _) rfl)
  | lam _ hc ih =>
    refine bind_run (inNewScope_run (bind_run (declare_run rfl _) ih)) ?_
    exact bind_run (coerce_run hc _ _ _ _) rfl
  | app _ _ hc ihf iha =>
    exact bind_run ihf (bind_run iha (bind_run rfl (bind_run (coerce_run hc _ _ _ _) rfl)))
  | appDyn _ _ ihf iha =>
    exact bind_run ihf (bind_run iha (bind_run rfl (bind_run (coerce_same _ _ _ _ _) rfl)))
  | seqOne _ ih => exact bind_run (bind_run ih rfl) rfl
  | seqMore _ _ ih ihs => exact bind_run (bind_run ih (bind_run (checkSeq_of_check ihs) rfl)) rfl
  | decl _ hc hx ih =>
    refine bind_run ih (bind_run (coerce_run hc _ _ _ _) ?_)
    exact bind_run (declare_run (by simpa using hx) _) rfl
  | assign _ _ hc iht ihv =>
    exact bind_run iht (bind_run ihv (bind_run rfl (bind_run (coerce_run hc _ _ _ _) rfl)))
  | assignDyn _ _ iht ihv =>
    exact bind_run iht (bind_run ihv (bind_run rfl (bind_run (coerce_same _ _ _ _ _) rfl)))
  | deref _ ih | derefDyn _ ih => exact bind_run ih (bind_run rfl rfl)
  | alloc _ ih | print _ ih | cast _ ih => exact bind_run ih rfl

/-! ## Checks that insert no cast -/

theorem Ty.join_self : ∀ ty : Ty, ty.join ty = ty
  | .fn a b => by simp only [Ty.join, Ty.join_self a, Ty.join_self b]
  | .dyn | .bool | .int | .string | .unit | .ref _ => by simp [Ty.join]

/-- The check goes through and leaves nothing in the log. -/
def Quiet (Γ : Context) (e : Expr) (ty : Ty) (e' : Expr) (Γ' : Context) : Prop :=
  ∀ log, Elab ⟨Γ, log⟩ e ty e' ⟨Γ', log⟩

namespace Quiet

variable {Γ Γ₁ Γ₂ Γ₃ : Context} {c t e l r f a v c' t' e' l' r' f' a' v' : Expr} {ty : Ty}

theorem integer {op : BinOp} (hop : op.isEquality = false) (hl : Quiet Γ l .int l' Γ₁)
    (hr : Quiet Γ₁ r .int r' Γ₂) : Quiet Γ (.binary op l r) op.resultTy (.binary op l' r') Γ₂ := by
  intro log
  have h := Elab.integer hop (hl log) (hr log) rfl rfl
  simpa using h

theorem cond (hc : Quiet Γ c .bool c' Γ₁) (ht : Quiet Γ₁.push t ty t' Γ₂)
    (he : Quiet Γ₂.pop.push e ty e' Γ₃) : Quiet Γ (.cond c t e) ty (.cond c' t' e') Γ₃.pop := by
  intro log
  have ht' : Elab ((⟨Γ₁, log⟩ : CheckState).adjusted .condition .bool .bool).push t ty t' ⟨Γ₂, log⟩ := by
    rw [CheckState.adjusted_self]
    exact ht log
  have h := Elab.cond (hc log) rfl ht' (he log)
  simp only [Ty.join_self, Expr.adjusted_self, CheckState.adjusted_self] at h
  exact h

theorem lam {x : String} {xTy : Ty} {ret : Option Ty} (hret : ret.getD ty = ty)
    (h : Quiet (Γ.push.bind x xTy) e ty e' Γ₁) :
    Quiet Γ (.lam x xTy ret e) (.fn xTy ty) (.lam x xTy (some ty) e') Γ₁.pop := by
  intro log
  have hbody : Elab ((⟨Γ, log⟩ : CheckState).push.bind x xTy) e ty e' ⟨Γ₁, log⟩ := h log
  have h : Elab ⟨Γ, log⟩ (.lam x xTy ret e) _ _ _ := .lam hbody (by rw [hret]; exact ty.consistent_refl)
  simp only [hret, Expr.adjusted_self, CheckState.adjusted_self] at h
  exact h

theorem app {dom cod : Ty} (hf : Quiet Γ f (.fn dom cod) f' Γ₁) (ha : Quiet Γ₁ a dom a' Γ₂) :
    Quiet Γ (.app f a) cod (.app f' a') Γ₂ := by
  intro log
  have h := Elab.app (hf log) (ha log) dom.consistent_refl
  simpa using h

theorem decl {x : String} {declared : Option Ty} (hd : declared.getD ty = ty) (h : Quiet Γ v ty v' Γ₁)
    (hx : Γ₁.current.binds x = false) :
    Quiet Γ (.decl x declared v) .unit (.decl x declared v') (Γ₁.bind x ty) := by
  intro log
  have h : Elab ⟨Γ, log⟩ (.decl x declared v) _ _ _ :=
    .decl (h log) (by rw [hd]; exact ty.consistent_refl) hx
  simp only [hd, Expr.adjusted_self, CheckState.adjusted_self] at h
  exact h

theorem assign {cell : Ty} (ht : Quiet Γ t (.ref cell) t' Γ₁) (hv : Quiet Γ₁ v cell v' Γ₂) :
    Quiet Γ (.assign t v) (.ref cell) (.assign t' v') Γ₂ := by
  intro log
  have h := Elab.assign (ht log) (hv log) cell.consistent_refl
  simpa using h

end Quiet

end Gradual

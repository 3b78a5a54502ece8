import Gradual.Proofs.Elaboration
import Gradual.Proofs.Names
import Mathlib.Data.Multiset.AddSub

/-!
# The log accounts for every cast

A cast is reported when it is built, long before the tree around it is known to
pass. Once it passes, every cast that was reported stands somewhere in it, and
every other cast was there before (`check_reports_casts`). The argument counts,
for each type, the casts to it in the tree and in the log.
-/

namespace Gradual

/-! ## What a log reports -/

def Event.castTarget? : Event → Option Ty
  | .castInserted _ target => some target
  | _ => none

namespace Log

def castTargets (log : Log) : List Ty :=
  log.toList.filterMap Event.castTarget?

@[simp] theorem castTargets_append (log new : Log) :
    castTargets (log ++ new) = log.castTargets ++ new.castTargets := by
  simp [castTargets]

@[simp] theorem castTargets_push (log : Log) (rule : CastRule) (target : Ty) :
    castTargets (log.push (.castInserted rule target)) = log.castTargets ++ [target] := by
  simp [castTargets, Event.castTarget?]

theorem length_castTargets (log : Log) :
    log.castTargets.length = log.countP (·.message == "inserting cast") := by
  have hmessage : ∀ e : Event, e.castTarget?.isSome = (e.message == "inserting cast") := by
    intro e
    cases e <;> rfl
  rw [castTargets, List.length_filterMap_eq_countP, ← Array.countP_toList]
  exact List.countP_congr fun e _ => by rw [hmessage e]

end Log

namespace CheckState

variable (σ : CheckState) (rule : CastRule) (target found : Ty)

@[simp] theorem log_push : σ.push.log = σ.log := rfl

@[simp] theorem log_pop : σ.pop.log = σ.log := rfl

@[simp] theorem log_bind (x : String) (ty : Ty) : (σ.bind x ty).log = σ.log := rfl

def LogGrows (σ σ' : CheckState) : Prop :=
  ∃ new : Log, σ'.log = σ.log ++ new

theorem LogGrows.refl : σ.LogGrows σ :=
  ⟨#[], by simp⟩

variable {σ} in
theorem LogGrows.trans {σ' σ'' : CheckState} (h : σ.LogGrows σ') (h' : σ'.LogGrows σ'') : σ.LogGrows σ'' := by
  obtain ⟨new, hnew⟩ := h
  obtain ⟨more, hmore⟩ := h'
  exact ⟨new ++ more, by rw [hmore, hnew, Array.append_assoc]⟩

theorem logGrows_inserted : σ.LogGrows (σ.inserted rule target) :=
  ⟨#[.castInserted rule target], rfl⟩

theorem logGrows_adjusted : σ.LogGrows (σ.adjusted rule target found) := by
  unfold adjusted
  by_cases h : found = target
  · rw [if_pos h]
    exact .refl σ
  · rw [if_neg h]
    exact σ.logGrows_inserted rule target

end CheckState

/-! ## Checked trees -/

section
variable {σ σ' : CheckState} {e e' : Expr} {ty : Ty}

theorem Elab.logGrows (h : Elab σ e ty e' σ') : σ.LogGrows σ' := by
  induction h with
  | const | var _ | seqNil => exact .refl _
  | equality _ _ _ _ ihl ihr => exact ihl.trans ihr
  | integer _ _ _ _ _ ihl ihr =>
    refine (ihl.trans ihr).trans ?_
    exact (CheckState.logGrows_adjusted _ _ _ _).trans (CheckState.logGrows_adjusted _ _ _ _)
  | @cond σ _ σ₂ σ₃ _ _ _ _ _ _ _ _ _ _ _ _ _ ihc iht ihe =>
    -- The log is the same inside a new scope and outside of it.
    have ht : σ.LogGrows σ₂.pop := (ihc.trans (CheckState.logGrows_adjusted _ .condition _ _)).trans iht
    have he : σ.LogGrows σ₃.pop := ht.trans ihe
    exact (he.trans (CheckState.logGrows_adjusted _ _ _ _)).trans (CheckState.logGrows_adjusted _ _ _ _)
  | lam _ _ ih => exact CheckState.LogGrows.trans ih (CheckState.logGrows_adjusted _ .body _ _)
  | app _ _ _ ihf iha => exact (ihf.trans iha).trans (CheckState.logGrows_adjusted _ _ _ _)
  | appDyn _ _ ihf iha => exact (ihf.trans iha).trans (CheckState.logGrows_inserted _ _ _)
  | seqOne _ ih => exact ih
  | seqMore _ _ ih ihs => exact ih.trans ihs
  | decl _ _ _ ih => exact ih.trans (CheckState.logGrows_adjusted _ .declaration _ _)
  | assign _ _ _ iht ihv => exact (iht.trans ihv).trans (CheckState.logGrows_adjusted _ _ _ _)
  | assignDyn _ _ iht ihv => exact (iht.trans ihv).trans (CheckState.logGrows_inserted _ _ _)
  | deref _ ih => exact ih
  | derefDyn _ ih => exact ih.trans (CheckState.logGrows_inserted _ _ _)
  | alloc _ ih | print _ ih | cast _ ih => exact ih

end

/-! ## Counting casts -/

def Expr.castsTo (t : Ty) (e : Expr) : Nat :=
  e.castTargets.count t

namespace Expr

variable (t : Ty) (a b c : Expr)

theorem castsTo_binary (op : BinOp) : (binary op a b).castsTo t = a.castsTo t + b.castsTo t := by
  simp [castsTo, gather, targetHere]

theorem castsTo_cond : (cond a b c).castsTo t = a.castsTo t + b.castsTo t + c.castsTo t := by
  simp [castsTo, gather, targetHere, Nat.add_assoc]

theorem castsTo_lam (x : String) (xTy : Ty) (ret : Option Ty) : (lam x xTy ret a).castsTo t = a.castsTo t := by
  simp [castsTo, gather, targetHere]

theorem castsTo_app : (app a b).castsTo t = a.castsTo t + b.castsTo t := by
  simp [castsTo, gather, targetHere]

theorem castsTo_seq (es : List Expr) : (seq (a :: es)).castsTo t = a.castsTo t + (seq es).castsTo t := by
  simp [castsTo, gather, gatherAll, targetHere]

theorem castsTo_decl (x : String) (ty : Option Ty) : (decl x ty a).castsTo t = a.castsTo t := by
  simp [castsTo, gather, targetHere]

theorem castsTo_assign : (assign a b).castsTo t = a.castsTo t + b.castsTo t := by
  simp [castsTo, gather, targetHere]

theorem castsTo_deref : (deref a).castsTo t = a.castsTo t := by
  simp [castsTo, gather, targetHere]

theorem castsTo_cast (target : Ty) : (cast target a).castsTo t = a.castsTo t + [target].count t := by
  simp only [castsTo, castTargets, gather, targetHere, List.count_append, Nat.add_comm]

end Expr

def Log.castsTo (t : Ty) (log : Log) : Nat :=
  log.castTargets.count t

theorem castsTo_inserted (t : Ty) (rule : CastRule) (target : Ty) (σ : CheckState) :
    (σ.inserted rule target).log.castsTo t = σ.log.castsTo t + [target].count t := by
  simp only [Log.castsTo, CheckState.inserted, Log.castTargets_push, List.count_append]

theorem castsTo_adjusted (t : Ty) (rule : CastRule) (target found : Ty) (e : Expr) (σ : CheckState) :
    (e.adjusted target found).castsTo t + σ.log.castsTo t =
      e.castsTo t + (σ.adjusted rule target found).log.castsTo t := by
  unfold Expr.adjusted CheckState.adjusted
  by_cases h : found = target
  · rw [if_pos h, if_pos h]
  · rw [if_neg h, if_neg h, castsTo_inserted, Expr.castsTo_cast]
    omega

/-- Of the casts to `t`, a checked tree has more than before just as many as the
log has. -/
theorem Elab.castsTo {σ σ' : CheckState} {e e' : Expr} {ty : Ty} (h : Elab σ e ty e' σ') (t : Ty) :
    e'.castsTo t + σ.log.castsTo t = e.castsTo t + σ'.log.castsTo t := by
  induction h with
  | const | var _ | seqNil => rfl
  | equality =>
    rw [Expr.castsTo_binary, Expr.castsTo_binary]
    omega
  | @integer _ _ σ₂ _ _ _ l' r' lTy rTy =>
    have hl := castsTo_adjusted t .operand .int lTy l' σ₂
    have hr := castsTo_adjusted t .operand .int rTy r' (σ₂.adjusted .operand .int lTy)
    rw [Expr.castsTo_binary, Expr.castsTo_binary]
    omega
  | @cond _ σ₁ _ σ₃ _ _ _ c' t' e' cTy tTy eTy _ _ _ _ ihc iht ihe =>
    have hc := castsTo_adjusted t .condition .bool cTy c' σ₁
    have ht := castsTo_adjusted t .thenBranch (tTy.join eTy) tTy t' σ₃.pop
    have he := castsTo_adjusted t .elseBranch (tTy.join eTy) eTy e'
      (σ₃.pop.adjusted .thenBranch (tTy.join eTy) tTy)
    simp only [CheckState.log_push, CheckState.log_pop] at iht ihe ht
    rw [Expr.castsTo_cond, Expr.castsTo_cond]
    omega
  | @lam _ σ₁ _ _ ret _ body' bodyTy _ _ ih =>
    have hb := castsTo_adjusted t .body (ret.getD bodyTy) bodyTy body' σ₁.pop
    simp only [CheckState.log_bind, CheckState.log_push, CheckState.log_pop] at ih hb
    rw [Expr.castsTo_lam, Expr.castsTo_lam]
    omega
  | @app _ _ σ₂ _ _ _ a' aTy dom =>
    have ha := castsTo_adjusted t .argument dom aTy a' σ₂
    rw [Expr.castsTo_app, Expr.castsTo_app]
    omega
  | appDyn =>
    rw [Expr.castsTo_app, Expr.castsTo_app, Expr.castsTo_cast, castsTo_inserted]
    omega
  | seqOne =>
    rw [Expr.castsTo_seq, Expr.castsTo_seq]
    omega
  | seqMore =>
    rw [Expr.castsTo_seq, Expr.castsTo_seq]
    omega
  | @decl _ σ₁ _ ty _ v' vTy =>
    have hv := castsTo_adjusted t .declaration (ty.getD vTy) vTy v' σ₁
    rw [Expr.castsTo_decl, Expr.castsTo_decl, CheckState.log_bind]
    omega
  | @assign _ _ σ₂ _ _ _ v' cell vTy =>
    have hv := castsTo_adjusted t .assignValue cell vTy v' σ₂
    rw [Expr.castsTo_assign, Expr.castsTo_assign]
    omega
  | assignDyn =>
    rw [Expr.castsTo_assign, Expr.castsTo_assign, Expr.castsTo_cast, castsTo_inserted]
    omega
  | derefDyn =>
    rw [Expr.castsTo_deref, Expr.castsTo_deref, Expr.castsTo_cast, castsTo_inserted]
    omega
  | cast =>
    rw [Expr.castsTo_cast, Expr.castsTo_cast]
    omega
  | deref _ ih | alloc _ ih | print _ ih => exact ih

/-- What a check adds to the log says which casts the checked tree has besides
those that were there before: as many as are reported, and with the targets that
are reported. -/
theorem check_reports_casts {e e' : Expr} {ty : Ty} {σ σ' : CheckState} (h : e.check σ = .ok (ty, e') σ') :
    ∃ new : Log, σ'.log = σ.log ++ new ∧
      e'.casts = e.casts + new.countP (·.message == "inserting cast") ∧
      (e'.castTargets : Multiset Ty) = (e.castTargets : Multiset Ty) + (new.castTargets : Multiset Ty) := by
  have hE : Elab σ e ty e' σ' := .of_check e h
  obtain ⟨new, hnew⟩ := hE.logGrows
  have htargets : e'.castTargets.Perm (e.castTargets ++ new.castTargets) := by
    refine List.perm_iff_count.mpr fun t => ?_
    have hcount := hE.castsTo t
    simp only [Expr.castsTo, Log.castsTo, hnew, Log.castTargets_append, List.count_append] at hcount
    rw [List.count_append]
    omega
  refine ⟨new, hnew, ?_, Multiset.coe_eq_coe.mpr htargets⟩
  rw [Expr.casts_eq_length, Expr.casts_eq_length, ← Log.length_castTargets, htargets.length_eq,
    List.length_append]

def ownCast : Expr :=
  .seq [
    .decl "d" (some .dyn) (.cast .dyn (.const (.int 1))),
    .cond (.var "d") (.binary .add (.var "d") (.const (.int 1))) (.const (.str "none"))]

def ownCastChecked : Expr :=
  .seq [
    .decl "d" (some .dyn) (.cast .dyn (.const (.int 1))),
    .cond (.cast .bool (.var "d")) (.cast .dyn (.binary .add (.cast .int (.var "d")) (.const (.int 1))))
      (.cast .dyn (.const (.str "none")))]

theorem check_reports_casts_ownCast :
    ∃ σ, ownCast.check ⟨{}, #[.checked .unit 0]⟩ = .ok (.dyn, ownCastChecked) σ ∧
      ownCast.castTargets = [.dyn] ∧ ownCastChecked.castTargets = [.dyn, .bool, .dyn, .int, .dyn] ∧
      ∃ new : Log, σ.log = #[.checked .unit 0] ++ new ∧ 5 = 1 + new.countP (·.message == "inserting cast") ∧
        (ownCastChecked.castTargets : Multiset Ty) =
          (ownCast.castTargets : Multiset Ty) + (new.castTargets : Multiset Ty) := by
  have h : ∃ σ, ownCast.check ⟨{}, #[.checked .unit 0]⟩ = .ok (.dyn, ownCastChecked) σ := ⟨_, rfl⟩
  obtain ⟨σ, h⟩ := h
  exact ⟨σ, h, rfl, rfl, check_reports_casts h⟩

end Gradual

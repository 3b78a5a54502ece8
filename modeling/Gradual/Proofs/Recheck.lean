import Gradual.Proofs.Elaboration

/-!
# Checking twice

A cast that the checker inserts has the type that its place needs, and so have
the types that it fills in. A checked tree therefore passes every rule as it
is: checking it again gives the same tree and inserts no cast.
-/

namespace Gradual

theorem Quiet.adjusted {Γ Γ' : Context} {e : Expr} {found : Ty} (h : Quiet Γ e found e Γ') (target : Ty) :
    Quiet Γ (e.adjusted target found) target (e.adjusted target found) Γ' := by
  intro log
  unfold Expr.adjusted
  by_cases heq : found = target
  · subst heq
    rw [if_pos rfl]
    exact h log
  · rw [if_neg heq]
    exact .cast (h log)

theorem Elab.quiet {σ σ' : CheckState} {e e' : Expr} {ty : Ty} (h : Elab σ e ty e' σ') :
    Quiet σ.context e' ty e' σ'.context := by
  induction h with
  | const => intro log; exact .const
  | var hx => intro log; exact .var hx
  | equality hop _ _ hc ihl ihr => intro log; exact .equality hop (ihl log) (ihr log) hc
  | integer hop _ _ _ _ ihl ihr =>
    simp only [CheckState.adjusted_context]
    exact .integer hop (ihl.adjusted .int) (ihr.adjusted .int)
  | @cond σ σ₁ σ₂ σ₃ c t e c' t' e' cTy tTy eTy _ _ _ _ ihc iht ihe =>
    simp only [CheckState.adjusted_context]
    have ht : Quiet σ₁.context.push t' tTy t' σ₂.context := by simpa [CheckState.push] using iht
    -- Both branches have the joined type by now, and its join with itself is the same.
    exact .cond (ihc.adjusted .bool) (ht.adjusted _) (ihe.adjusted _)
  | lam _ _ ih =>
    simp only [CheckState.adjusted_context]
    exact .lam rfl (ih.adjusted _)
  | app _ _ _ ihf iha =>
    simp only [CheckState.adjusted_context]
    exact .app ihf (iha.adjusted _)
  | appDyn _ _ ihf iha =>
    -- The callee is cast to a function of just the argument's type.
    refine Quiet.app ?_ iha
    intro log; exact .cast (ihf log)
  | seqNil => intro log; exact .seqNil
  | seqOne _ ih => intro log; exact .seqOne (ih log)
  | seqMore _ hs ih ihs =>
    intro log
    cases hs with
    | seqOne _ => exact .seqMore (ih log) (ihs log)
    | seqMore _ _ => exact .seqMore (ih log) (ihs log)
  | @decl σ σ₁ x ty v v' vTy _ _ hx ih =>
    have hv := ih.adjusted (ty.getD vTy)
    have hd : ty.getD (ty.getD vTy) = ty.getD vTy := by cases ty <;> rfl
    simpa [CheckState.bind, Context.bind] using Quiet.decl hd hv hx
  | assign _ _ _ iht ihv =>
    simp only [CheckState.adjusted_context]
    exact .assign iht (ihv.adjusted _)
  | assignDyn _ _ iht ihv =>
    refine Quiet.assign ?_ ihv
    intro log; exact .cast (iht log)
  | deref _ ih => intro log; exact .deref (ih log)
  | derefDyn _ ih => intro log; exact .deref (.cast (ih log))
  | alloc _ ih => intro log; exact .alloc (ih log)
  | print _ ih => intro log; exact .print (ih log)
  | cast _ ih => intro log; exact .cast (ih log)

/-- A checked tree is accepted as it is, with the same type and the same
declarations, and the log gains nothing. -/
theorem check_of_checked {e e' : Expr} {ty : Ty} {Γ Γ' : Context} {log log' : Log}
    (h : e.check ⟨Γ, log⟩ = .ok (ty, e') ⟨Γ', log'⟩) (later : Log) :
    e'.check ⟨Γ, later⟩ = .ok (ty, e') ⟨Γ', later⟩ := by
  have hE : Elab ⟨Γ, log⟩ e ty e' ⟨Γ', log'⟩ := .of_check e h
  exact (hE.quiet later).check

def looseEnds : Expr :=
  .seq [
    .decl "d" (some .dyn) (.alloc (.const (.int 1)) none),
    .decl "f" (some .dyn) (.lam "x" .dyn (some .int) (.cond (.var "x") (.var "x") (.const (.int 0)))),
    .assign (.var "d") (.binary .add (.deref (.var "d")) (.const (.int 1))),
    .app (.var "f") (.const (.bool true))]

def looseEndsChecked : Expr :=
  .seq [
    .decl "d" (some .dyn) (.cast .dyn (.alloc (.const (.int 1)) (some .int))),
    .decl "f" (some .dyn)
      (.cast .dyn
        (.lam "x" .dyn (some .int)
          (.cast .int (.cond (.cast .bool (.var "x")) (.var "x") (.cast .dyn (.const (.int 0))))))),
    .assign (.cast (.ref .int) (.var "d"))
      (.binary .add (.cast .int (.deref (.cast (.ref .dyn) (.var "d")))) (.const (.int 1))),
    .app (.cast (.fn .bool .dyn) (.var "f")) (.const (.bool true))]

theorem check_of_checked_looseEnds :
    ∃ Γ log, looseEnds.check ⟨{}, #[]⟩ = .ok (.dyn, looseEndsChecked) ⟨Γ, log⟩ ∧
      looseEndsChecked.check ⟨{}, #[]⟩ = .ok (.dyn, looseEndsChecked) ⟨Γ, #[]⟩ := by
  have h : ∃ Γ log, looseEnds.check ⟨{}, #[]⟩ = .ok (.dyn, looseEndsChecked) ⟨Γ, log⟩ := ⟨_, _, rfl⟩
  obtain ⟨Γ, log, h⟩ := h
  exact ⟨Γ, log, h, check_of_checked h #[]⟩

end Gradual

import Gradual.Proofs.Typed

/-!
# Static typing

`Static Γ e ty Γ'` is the typing of a language without `?`: wherever the
checker asks for consistent types, it asks for equal ones. In a context and
under annotations that do not mention `?` it is what the checker does as long
as it inserts no cast (`static_iff_check`). A branch that joins to `?`, the one
way in which `?` comes up by itself, is cast.
-/

namespace Gradual

inductive Static : Context → Expr → Ty → Context → Prop where
  | const {Γ c} : Static Γ (.const c) c.ty Γ
  | var {Γ x ty} : Γ.find? x = some ty → Static Γ (.var x) ty Γ
  | equality {Γ Γ₁ Γ₂ op l r ty} :
      op.isEquality = true → Static Γ l ty Γ₁ → Static Γ₁ r ty Γ₂ → Static Γ (.binary op l r) .bool Γ₂
  | integer {Γ Γ₁ Γ₂ op l r} :
      op.isEquality = false → Static Γ l .int Γ₁ → Static Γ₁ r .int Γ₂ →
      Static Γ (.binary op l r) op.resultTy Γ₂
  | cond {Γ Γ₁ Γ₂ Γ₃ c t e ty} :
      Static Γ c .bool Γ₁ → Static Γ₁.push t ty Γ₂ → Static Γ₁.push e ty Γ₃ → Static Γ (.cond c t e) ty Γ₁
  | lam {Γ Γ₁ x xTy ret body ty} :
      Static (Γ.push.bind x xTy) body ty Γ₁ → (∀ t ∈ ret, t = ty) →
      Static Γ (.lam x xTy ret body) (.fn xTy ty) Γ
  | app {Γ Γ₁ Γ₂ f a dom cod} :
      Static Γ f (.fn dom cod) Γ₁ → Static Γ₁ a dom Γ₂ → Static Γ (.app f a) cod Γ₂
  | seqNil {Γ} : Static Γ (.seq []) .unit Γ
  | seqOne {Γ Γ₁ e ty} : Static Γ e ty Γ₁ → Static Γ (.seq [e]) ty Γ₁
  | seqMore {Γ Γ₁ Γ₂ e d es ty₁ ty} :
      Static Γ e ty₁ Γ₁ → Static Γ₁ (.seq (d :: es)) ty Γ₂ → Static Γ (.seq (e :: d :: es)) ty Γ₂
  | decl {Γ Γ₁ x declared v ty} :
      Static Γ v ty Γ₁ → (∀ t ∈ declared, t = ty) → Γ₁.current.binds x = false →
      Static Γ (.decl x declared v) .unit (Γ₁.bind x ty)
  | assign {Γ Γ₁ Γ₂ t v cell} :
      Static Γ t (.ref cell) Γ₁ → Static Γ₁ v cell Γ₂ → Static Γ (.assign t v) (.ref cell) Γ₂
  | deref {Γ Γ₁ t cell} : Static Γ t (.ref cell) Γ₁ → Static Γ (.deref t) cell Γ₁
  | alloc {Γ Γ₁ v cellTy ty} : Static Γ v ty Γ₁ → Static Γ (.alloc v cellTy) (.ref ty) Γ₁
  | print {Γ Γ₁ v ty} : Static Γ v ty Γ₁ → Static Γ (.print v) .unit Γ₁

/-! ## Trees with their slots filled -/

/-- The second tree is the first with the types of results and cells filled in;
a result type that was there stays. -/
inductive Expr.FillsTo : Expr → Expr → Prop where
  | const {c} : FillsTo (.const c) (.const c)
  | var {x} : FillsTo (.var x) (.var x)
  | binary {op l r l' r'} : FillsTo l l' → FillsTo r r' → FillsTo (.binary op l r) (.binary op l' r')
  | cond {c t e c' t' e'} :
      FillsTo c c' → FillsTo t t' → FillsTo e e' → FillsTo (.cond c t e) (.cond c' t' e')
  | lam {x xTy ret ty body body'} :
      (∀ t ∈ ret, t = ty) → FillsTo body body' → FillsTo (.lam x xTy ret body) (.lam x xTy (some ty) body')
  | app {f a f' a'} : FillsTo f f' → FillsTo a a' → FillsTo (.app f a) (.app f' a')
  | seqNil : FillsTo (.seq []) (.seq [])
  | seqCons {e es e' es'} :
      FillsTo e e' → FillsTo (.seq es) (.seq es') → FillsTo (.seq (e :: es)) (.seq (e' :: es'))
  | decl {x declared v v'} : FillsTo v v' → FillsTo (.decl x declared v) (.decl x declared v')
  | assign {t v t' v'} : FillsTo t t' → FillsTo v v' → FillsTo (.assign t v) (.assign t' v')
  | deref {t t'} : FillsTo t t' → FillsTo (.deref t) (.deref t')
  | alloc {v v' cellTy ty} : FillsTo v v' → FillsTo (.alloc v cellTy) (.alloc v' (some ty))
  | print {v v'} : FillsTo v v' → FillsTo (.print v) (.print v')

theorem Expr.FillsTo.casts {e e' : Expr} (h : e.FillsTo e') : e'.casts = 0 := by
  induction h with
  | seqCons _ _ ih ihs =>
    simp only [Expr.casts] at ihs
    simp [Expr.casts, Expr.castsAll, ih, ihs]
  | _ => simp_all [Expr.casts, Expr.castsAll]

theorem adjusted_of_casts {e : Expr} {target found : Ty} (h : (e.adjusted target found).casts = 0) :
    found = target ∧ e.adjusted target found = e ∧ e.casts = 0 := by
  unfold Expr.adjusted at h ⊢
  by_cases heq : found = target
  · rw [if_pos heq] at h ⊢
    exact ⟨heq, rfl, h⟩
  · rw [if_neg heq] at h
    simp [Expr.casts] at h

theorem eq_of_getD {o : Option Ty} {ty : Ty} (h : ty = o.getD ty) : ∀ t ∈ o, t = ty := by
  rintro t rfl
  exact h.symm

/-! ## Contexts and annotations without `?` -/

def Context.Definite (Γ : Context) : Prop :=
  ∀ s ∈ Γ.current :: Γ.outer, ∀ b ∈ s.bindings, b.2.mentionsDyn = false

namespace Context.Definite

variable {Γ : Context}

theorem push (h : Γ.Definite) : Γ.push.Definite := by
  simpa [Context.Definite, Context.push] using h

theorem bind (h : Γ.Definite) {ty : Ty} (hty : ty.mentionsDyn = false) (x : String) :
    (Γ.bind x ty).Definite := by
  simp only [Context.Definite, List.forall_mem_cons, Context.bind, Scope.bindings_insert] at h ⊢
  exact ⟨⟨hty, h.1⟩, h.2⟩

theorem find? (h : Γ.Definite) {x : String} {ty : Ty} (hx : Γ.find? x = some ty) :
    ty.mentionsDyn = false := by
  have key : ∀ ss : List (Scope Ty), (∀ s ∈ ss, ∀ b ∈ s.bindings, b.2.mentionsDyn = false) →
      Context.findIn x ss = some ty → ty.mentionsDyn = false := by
    intro ss hss hf
    induction ss with
    | nil => cases hf
    | cons s ss ih =>
      simp only [Context.findIn] at hf
      cases hs : s.find? x with
      | some t =>
        rw [hs] at hf
        cases hf
        obtain ⟨before, after, hb, -⟩ := List.lookup_eq_some_iff.mp hs
        exact hss s List.mem_cons_self (x, ty) (by simp [hb])
      | none =>
        rw [hs] at hf
        exact ih (fun s hs => hss s (List.mem_cons_of_mem _ hs)) hf
  exact key _ h hx

end Context.Definite

def Expr.signatureHere : Expr → List Ty
  | .lam _ xTy ret _ => xTy :: ret.toList
  | .decl _ ty _ => ty.toList
  | _ => []

abbrev Expr.signatures : Expr → List Ty := Expr.gather Expr.signatureHere

/-! ## Checks without casts are static -/

theorem Elab.static {σ σ' : CheckState} {e e' : Expr} {ty : Ty} (h : Elab σ e ty e' σ')
    (hs : ∀ t ∈ e.signatures, t.mentionsDyn = false) (hΓ : σ.context.Definite) (hz : e'.casts = 0) :
    Static σ.context e ty σ'.context ∧ ty.mentionsDyn = false ∧ σ'.context.Definite := by
  induction h with
  | @const σ c => exact ⟨.const, by cases c <;> rfl, hΓ⟩
  | var hx => exact ⟨.var hx, hΓ.find? hx, hΓ⟩
  | equality hop _ _ hc ihl ihr =>
    simp only [Expr.gather, Expr.signatureHere, List.nil_append, List.forall_mem_append] at hs
    simp only [Expr.casts, Nat.add_eq_zero_iff] at hz
    obtain ⟨hl, hlTy, hΓ₁⟩ := ihl hs.1 hΓ hz.1
    obtain ⟨hr, hrTy, hΓ₂⟩ := ihr hs.2 hΓ₁ hz.2
    have heq := Ty.eq_of_consistent_of_definite hlTy hrTy hc
    subst heq
    exact ⟨.equality hop hl hr, rfl, hΓ₂⟩
  | @integer σ σ₁ σ₂ op l r l' r' lTy rTy hop _ _ _ _ ihl ihr =>
    simp only [Expr.gather, Expr.signatureHere, List.nil_append, List.forall_mem_append] at hs
    simp only [Expr.casts, Nat.add_eq_zero_iff] at hz
    obtain ⟨rfl, -, hzl⟩ := adjusted_of_casts hz.1
    obtain ⟨rfl, -, hzr⟩ := adjusted_of_casts hz.2
    obtain ⟨hl, -, hΓ₁⟩ := ihl hs.1 hΓ hzl
    obtain ⟨hr, -, hΓ₂⟩ := ihr hs.2 hΓ₁ hzr
    simp only [CheckState.adjusted_self]
    refine ⟨.integer hop hl hr, ?_, hΓ₂⟩
    unfold BinOp.resultTy
    split <;> rfl
  | @cond σ σ₁ σ₂ σ₃ c t e c' t' e' cTy tTy eTy _ _ ht he ihc iht ihe =>
    simp only [Expr.gather, Expr.signatureHere, List.nil_append, List.forall_mem_append] at hs
    simp only [Expr.casts, Nat.add_eq_zero_iff] at hz
    obtain ⟨rfl, -, hzc⟩ := adjusted_of_casts hz.1.1
    obtain ⟨htTy, -, hzt⟩ := adjusted_of_casts hz.1.2
    obtain ⟨heTy, -, hze⟩ := adjusted_of_casts hz.2
    simp only [CheckState.adjusted_self] at ht iht
    -- Both branches stand in the scopes that the test leaves behind.
    have hp₂ : σ₂.pop.context = σ₁.context := CheckState.pop_context ht.context.1
    have hp₃ : σ₃.pop.context = σ₁.context := by rw [CheckState.pop_context he.context.1, hp₂]
    obtain ⟨hsc, -, hΓ₁⟩ := ihc hs.1 hΓ hzc
    obtain ⟨hst, htDef, -⟩ := iht hs.2.1 hΓ₁.push hzt
    rw [CheckState.push, hp₂] at ihe
    obtain ⟨hse, -, -⟩ := ihe hs.2.2 hΓ₁.push hze
    have hsame : eTy = tTy := heTy.trans htTy.symm
    subst hsame
    simp only [Ty.join_self, CheckState.adjusted_self, hp₃]
    exact ⟨.cond hsc hst hse, htDef, hΓ₁⟩
  | @lam σ σ₁ x xTy ret body body' bodyTy hb _ ih =>
    simp only [Expr.gather, Expr.signatureHere, List.cons_append, List.forall_mem_cons,
      List.forall_mem_append] at hs
    simp only [Expr.casts] at hz
    obtain ⟨hret, -, hzb⟩ := adjusted_of_casts hz
    obtain ⟨hsb, hbDef, -⟩ := ih hs.2.2 (hΓ.push.bind hs.1 x) hzb
    have hp : σ₁.pop.context = σ.context := CheckState.pop_context hb.context.1
    rw [← hret, CheckState.adjusted_self, hp]
    exact ⟨.lam hsb (eq_of_getD hret), by simp [Ty.mentionsDyn, hs.1, hbDef], hΓ⟩
  | app _ _ _ ihf iha =>
    simp only [Expr.gather, Expr.signatureHere, List.nil_append, List.forall_mem_append] at hs
    simp only [Expr.casts, Nat.add_eq_zero_iff] at hz
    obtain ⟨rfl, -, hza⟩ := adjusted_of_casts hz.2
    obtain ⟨hf, hfDef, hΓ₁⟩ := ihf hs.1 hΓ hz.1
    obtain ⟨ha, -, hΓ₂⟩ := iha hs.2 hΓ₁ hza
    simp only [Ty.mentionsDyn, Bool.or_eq_false_iff] at hfDef
    rw [CheckState.adjusted_self]
    exact ⟨.app hf ha, hfDef.2, hΓ₂⟩
  | seqNil => exact ⟨.seqNil, rfl, hΓ⟩
  | seqOne _ ih =>
    simp only [Expr.gather, Expr.gatherAll, Expr.signatureHere, List.nil_append, List.append_nil] at hs
    simp only [Expr.casts, Expr.castsAll, Nat.add_zero] at hz
    obtain ⟨he, heDef, hΓ₁⟩ := ih hs hΓ hz
    exact ⟨.seqOne he, heDef, hΓ₁⟩
  | seqMore _ _ ih ihs =>
    simp only [Expr.gather, Expr.gatherAll, Expr.signatureHere, List.nil_append,
      List.forall_mem_append] at hs ihs
    simp only [Expr.casts, Expr.castsAll, Nat.add_eq_zero_iff] at hz ihs
    obtain ⟨he, -, hΓ₁⟩ := ih hs.1 hΓ hz.1
    obtain ⟨hes, hesDef, hΓ₂⟩ := ihs hs.2 hΓ₁ hz.2
    exact ⟨.seqMore he hes, hesDef, hΓ₂⟩
  | @decl σ σ₁ x declared v v' vTy _ _ hx ih =>
    simp only [Expr.gather, Expr.signatureHere, List.forall_mem_append] at hs
    simp only [Expr.casts] at hz
    obtain ⟨hd, -, hzv⟩ := adjusted_of_casts hz
    obtain ⟨hv, hvDef, hΓ₁⟩ := ih hs.2 hΓ hzv
    rw [← hd, CheckState.adjusted_self]
    exact ⟨.decl hv (eq_of_getD hd) hx, rfl, hΓ₁.bind hvDef x⟩
  | assign _ _ _ iht ihv =>
    simp only [Expr.gather, Expr.signatureHere, List.nil_append, List.forall_mem_append] at hs
    simp only [Expr.casts, Nat.add_eq_zero_iff] at hz
    obtain ⟨rfl, -, hzv⟩ := adjusted_of_casts hz.2
    obtain ⟨ht, htDef, hΓ₁⟩ := iht hs.1 hΓ hz.1
    obtain ⟨hv, -, hΓ₂⟩ := ihv hs.2 hΓ₁ hzv
    rw [CheckState.adjusted_self]
    exact ⟨.assign ht hv, htDef, hΓ₂⟩
  | deref _ ih =>
    obtain ⟨ht, htDef, hΓ₁⟩ := ih hs hΓ hz
    exact ⟨.deref ht, htDef, hΓ₁⟩
  | alloc _ ih =>
    obtain ⟨hv, hvDef, hΓ₁⟩ := ih hs hΓ hz
    exact ⟨.alloc hv, hvDef, hΓ₁⟩
  | print _ ih =>
    obtain ⟨hv, -, hΓ₁⟩ := ih hs hΓ hz
    exact ⟨.print hv, rfl, hΓ₁⟩
  | appDyn _ _ _ _ | assignDyn _ _ _ _ | derefDyn _ _ | cast _ _ => simp [Expr.casts] at hz

/-! ## Static trees are checked without casts -/

theorem Quiet.pop {Γ Δ Γ' : Context} {e e' : Expr} {ty : Ty} (h : Quiet Δ e ty e' Γ')
    (hΔ : Δ.outer = Γ.current :: Γ.outer) : Γ'.pop = Γ := by
  have ho : Γ'.outer = Δ.outer := (h #[]).context.1
  simp only [Context.pop, ho, hΔ]

theorem getD_of_eq {o : Option Ty} {ty : Ty} (h : ∀ t ∈ o, t = ty) : o.getD ty = ty := by
  cases o with
  | none => rfl
  | some t => exact h t rfl

theorem Static.quiet {Γ Γ' : Context} {e : Expr} {ty : Ty} (h : Static Γ e ty Γ') :
    ∃ e', Quiet Γ e ty e' Γ' ∧ e.FillsTo e' := by
  induction h with
  | @const Γ c => exact ⟨.const c, fun log => .const, .const⟩
  | @var Γ x ty hx => exact ⟨.var x, fun log => .var hx, .var⟩
  | @equality Γ Γ₁ Γ₂ op l r ty hop _ _ ihl ihr =>
    obtain ⟨l', hl, fl⟩ := ihl
    obtain ⟨r', hr, fr⟩ := ihr
    exact ⟨_, fun log => .equality hop (hl log) (hr log) ty.consistent_refl, .binary fl fr⟩
  | integer hop _ _ ihl ihr =>
    obtain ⟨l', hl, fl⟩ := ihl
    obtain ⟨r', hr, fr⟩ := ihr
    exact ⟨_, .integer hop hl hr, .binary fl fr⟩
  | @cond Γ Γ₁ Γ₂ Γ₃ c t e ty _ _ _ ihc iht ihe =>
    obtain ⟨c', hc, fc⟩ := ihc
    obtain ⟨t', ht, ft⟩ := iht
    obtain ⟨e', he, fe⟩ := ihe
    have hp₂ : Γ₂.pop = Γ₁ := ht.pop rfl
    have hp₃ : Γ₃.pop = Γ₁ := he.pop rfl
    have h : Quiet Γ (.cond c t e) ty (.cond c' t' e') Γ₃.pop := .cond hc ht (hp₂ ▸ he)
    rw [hp₃] at h
    exact ⟨_, h, .cond fc ft fe⟩
  | @lam Γ Γ₁ x xTy ret body ty _ hret ih =>
    obtain ⟨body', hb, fb⟩ := ih
    have hp : Γ₁.pop = Γ := hb.pop rfl
    have h : Quiet Γ (.lam x xTy ret body) (.fn xTy ty) (.lam x xTy (some ty) body') Γ₁.pop :=
      .lam (getD_of_eq hret) hb
    rw [hp] at h
    exact ⟨_, h, .lam hret fb⟩
  | app _ _ ihf iha =>
    obtain ⟨f', hf, ff⟩ := ihf
    obtain ⟨a', ha, fa⟩ := iha
    exact ⟨_, .app hf ha, .app ff fa⟩
  | seqNil => exact ⟨_, fun log => .seqNil, .seqNil⟩
  | seqOne _ ih =>
    obtain ⟨e', he, fe⟩ := ih
    exact ⟨_, fun log => .seqOne (he log), .seqCons fe .seqNil⟩
  | seqMore _ _ ih ihs =>
    obtain ⟨e', he, fe⟩ := ih
    obtain ⟨rest, hrest, frest⟩ := ihs
    cases frest with
    | seqCons fd fes =>
      exact ⟨_, fun log => .seqMore (he log) (hrest log), .seqCons fe (.seqCons fd fes)⟩
  | decl _ hd hx ih =>
    obtain ⟨v', hv, fv⟩ := ih
    exact ⟨_, .decl (getD_of_eq hd) hv hx, .decl fv⟩
  | assign _ _ iht ihv =>
    obtain ⟨t', ht, ft⟩ := iht
    obtain ⟨v', hv, fv⟩ := ihv
    exact ⟨_, .assign ht hv, .assign ft fv⟩
  | deref _ ih =>
    obtain ⟨t', ht, ft⟩ := ih
    exact ⟨_, fun log => .deref (ht log), .deref ft⟩
  | alloc _ ih =>
    obtain ⟨v', hv, fv⟩ := ih
    exact ⟨_, fun log => .alloc (hv log), .alloc fv⟩
  | print _ ih =>
    obtain ⟨v', hv, fv⟩ := ih
    exact ⟨_, fun log => .print (hv log), .print fv⟩

/-- Without `?` in the context and the annotations, a tree has a static type
just when checking gives it this type and no cast is in the checked tree, which
is then the tree with its slots filled. A tree with a cast of its own has no
static type and keeps its cast. -/
theorem static_iff_check {e : Expr} {Γ : Context} (hs : ∀ t ∈ e.signatures, t.mentionsDyn = false)
    (hΓ : Γ.Definite) (log : Log) (ty : Ty) (Γ' : Context) :
    (Static Γ e ty Γ' ↔ ∃ e' log', e.check ⟨Γ, log⟩ = .ok (ty, e') ⟨Γ', log'⟩ ∧ e'.casts = 0) ∧
      ∀ e' log', e.check ⟨Γ, log⟩ = .ok (ty, e') ⟨Γ', log'⟩ → e'.casts = 0 → e.FillsTo e' ∧ log' = log := by
  have hto : Static Γ e ty Γ' → ∃ e', e.check ⟨Γ, log⟩ = .ok (ty, e') ⟨Γ', log⟩ ∧ e.FillsTo e' := by
    intro h
    obtain ⟨e', hq, hf⟩ := h.quiet
    exact ⟨e', (hq log).check, hf⟩
  have hfrom : ∀ e' log', e.check ⟨Γ, log⟩ = .ok (ty, e') ⟨Γ', log'⟩ → e'.casts = 0 → Static Γ e ty Γ' := by
    intro e' log' hc hz
    exact ((Elab.of_check e hc).static hs hΓ hz).1
  refine ⟨⟨fun h => ?_, ?_⟩, fun e' log' hc hz => ?_⟩
  · obtain ⟨e', hc, hf⟩ := hto h
    exact ⟨e', log, hc, hf.casts⟩
  · rintro ⟨e', log', hc, hz⟩
    exact hfrom e' log' hc hz
  · -- The check has one outcome only, so it is the one that the static type gives.
    obtain ⟨e₂, hc₂, hf⟩ := hto (hfrom e' log' hc hz)
    rw [hc] at hc₂
    cases hc₂
    exact ⟨hf, rfl⟩

def tally : Expr :=
  .seq [
    .decl "sum" none (.alloc (.const (.int 0)) none),
    .decl "add" (some (.fn .int (.ref .int)))
      (.lam "n" .int none (.assign (.var "sum") (.binary .add (.deref (.var "sum")) (.var "n")))),
    .cond (.binary .gt (.deref (.app (.var "add") (.const (.int 2)))) (.const (.int 1)))
      (.const (.str "many"))
      (.const (.str "few"))]

def tallyChecked : Expr :=
  .seq [
    .decl "sum" none (.alloc (.const (.int 0)) (some .int)),
    .decl "add" (some (.fn .int (.ref .int)))
      (.lam "n" .int (some (.ref .int))
        (.assign (.var "sum") (.binary .add (.deref (.var "sum")) (.var "n")))),
    .cond (.binary .gt (.deref (.app (.var "add") (.const (.int 2)))) (.const (.int 1)))
      (.const (.str "many"))
      (.const (.str "few"))]

theorem static_iff_check_tally :
    (∀ t ∈ tally.signatures, t.mentionsDyn = false) ∧ Context.Definite {} ∧
      ∃ Γ, Static {} tally .string Γ ∧ tally.check ⟨{}, #[]⟩ = .ok (.string, tallyChecked) ⟨Γ, #[]⟩ := by
  have hs : ∀ t ∈ tally.signatures, t.mentionsDyn = false := by decide
  have hΓ : Context.Definite {} := by simp [Context.Definite]
  have hc : ∃ Γ, tally.check ⟨{}, #[]⟩ = .ok (.string, tallyChecked) ⟨Γ, #[]⟩ := ⟨_, rfl⟩
  obtain ⟨Γ, hc⟩ := hc
  exact ⟨hs, hΓ, Γ, (static_iff_check hs hΓ #[] .string Γ).1.mpr ⟨_, _, hc, rfl⟩, hc⟩

end Gradual

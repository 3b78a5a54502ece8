import Gradual.Proofs.Elaboration
import Gradual.Proofs.Erasure
import Gradual.Proofs.Precision

/-!
# The casts that checking inserts

Checking changes a tree in two ways only: it fills slots and it wraps subtrees
in casts. A cast stands only where the type of the subtree differs from the one
that its place needs, and only where the two are consistent, so each is needed
and each can pass (`check_inserts_needed_casts`). At a branch this is because
the join of two types is consistent with both.
-/

namespace Gradual

namespace Expr

/-! ## Slots -/

mutual

/-- The tree with its slots empty: the result types of functions and the types
of cells. -/
def blank : Expr → Expr
  | .const c => .const c
  | .var x => .var x
  | .binary op l r => .binary op l.blank r.blank
  | .cond c t e => .cond c.blank t.blank e.blank
  | .lam x xTy _ body => .lam x xTy none body.blank
  | .app f a => .app f.blank a.blank
  | .seq es => .seq (blankAll es)
  | .decl x ty v => .decl x ty v.blank
  | .assign t v => .assign t.blank v.blank
  | .deref t => .deref t.blank
  | .alloc v _ => .alloc v.blank none
  | .print v => .print v.blank
  | .cast ty e => .cast ty e.blank

def blankAll : List Expr → List Expr
  | [] => []
  | e :: es => e.blank :: blankAll es

end

mutual

theorem erase_of_casts : ∀ {e : Expr}, e.casts = 0 → e.erase = e
  | .const _, _ | .var _, _ => rfl
  | .binary _ l r, h | .app l r, h | .assign l r, h => by
    simp only [casts, Nat.add_eq_zero_iff] at h
    simp only [erase, erase_of_casts h.1, erase_of_casts h.2]
  | .cond c t e, h => by
    simp only [casts, Nat.add_eq_zero_iff] at h
    simp only [erase, erase_of_casts h.1.1, erase_of_casts h.1.2, erase_of_casts h.2]
  | .lam _ _ _ e, h | .decl _ _ e, h | .deref e, h | .alloc e _, h | .print e, h => by
    simp only [casts] at h
    simp only [erase, erase_of_casts h]
  | .seq es, h => by
    simp only [casts] at h
    simp only [erase, eraseAll_of_casts h]
  | .cast _ _, h => by simp [casts] at h

theorem eraseAll_of_casts : ∀ {es : List Expr}, castsAll es = 0 → eraseAll es = es
  | [], _ => rfl
  | e :: es, h => by
    simp only [castsAll, Nat.add_eq_zero_iff] at h
    simp only [eraseAll, erase_of_casts h.1, eraseAll_of_casts h.2]

end

@[simp] theorem erase_adjusted (target found : Ty) (e : Expr) : (e.adjusted target found).erase = e.erase := by
  unfold adjusted
  by_cases h : found = target
  · rw [if_pos h]
  · rw [if_neg h, erase]

/-! ## Places -/

def isCast : Expr → Bool
  | .cast _ _ => true
  | _ => false

def children : Expr → List Expr
  | .const _ => []
  | .var _ => []
  | .binary _ l r => [l, r]
  | .cond c t e => [c, t, e]
  | .lam _ _ _ body => [body]
  | .app f a => [f, a]
  | .seq es => es
  | .decl _ _ v => [v]
  | .assign t v => [t, v]
  | .deref t => [t]
  | .alloc v _ => [v]
  | .print v => [v]
  | .cast _ e => [e]

/-- The node that is reached from the root by going to the children of the
given numbers. -/
def node? : Expr → List Nat → Option Expr
  | e, [] => some e
  | e, i :: path => e.children[i]?.bind (·.node? path)

/-- The path to the same place in the tree without its casts. -/
def uncast : Expr → List Nat → List Nat
  | _, [] => []
  | .cast _ e, _ :: path => e.uncast path
  | e, i :: path => i :: (e.children[i]?.elim [] (·.uncast path))

theorem uncast_cons {e d : Expr} {i : Nat} (he : e.isCast = false) (hd : e.children[i]? = some d)
    (path : List Nat) :
    e.uncast (i :: path) = i :: d.uncast path := by
  cases e with
  | cast ty b => simp [isCast] at he
  | _ => simp [uncast, hd]

end Expr

/-! ## The checks within a check -/

/-- To check the first tree in the first state, its child of the given number is
checked in the second state. -/
inductive Enters : CheckState → Expr → Nat → CheckState → Expr → Prop where
  | left {σ op l r} : Enters σ (.binary op l r) 0 σ l
  | right {σ σ₁ op l r lTy l'} : l.check σ = .ok (lTy, l') σ₁ → Enters σ (.binary op l r) 1 σ₁ r
  | test {σ c t e} : Enters σ (.cond c t e) 0 σ c
  | thenBranch {σ σ₁ c t e cTy c'} :
      c.check σ = .ok (cTy, c') σ₁ →
      Enters σ (.cond c t e) 1 (σ₁.adjusted .condition .bool cTy).push t
  | elseBranch {σ σ₁ σ₂ c t e cTy c' tTy t'} :
      c.check σ = .ok (cTy, c') σ₁ → t.check (σ₁.adjusted .condition .bool cTy).push = .ok (tTy, t') σ₂ →
      Enters σ (.cond c t e) 2 σ₂.pop.push e
  | body {σ x xTy ret b} : Enters σ (.lam x xTy ret b) 0 (σ.push.bind x xTy) b
  | callee {σ f a} : Enters σ (.app f a) 0 σ f
  | argument {σ σ₁ f a fTy f'} : f.check σ = .ok (fTy, f') σ₁ → Enters σ (.app f a) 1 σ₁ a
  | first {σ e es} : Enters σ (.seq (e :: es)) 0 σ e
  | later {σ σ₁ σ₂ e es ty e' i d} :
      e.check σ = .ok (ty, e') σ₁ → Enters σ₁ (.seq es) i σ₂ d → Enters σ (.seq (e :: es)) (i + 1) σ₂ d
  | declared {σ x ty v} : Enters σ (.decl x ty v) 0 σ v
  | target {σ t v} : Enters σ (.assign t v) 0 σ t
  | assigned {σ σ₁ t v tTy t'} : t.check σ = .ok (tTy, t') σ₁ → Enters σ (.assign t v) 1 σ₁ v
  | reference {σ t} : Enters σ (.deref t) 0 σ t
  | contents {σ v ty} : Enters σ (.alloc v ty) 0 σ v
  | printed {σ v} : Enters σ (.print v) 0 σ v
  | cast {σ ty e} : Enters σ (.cast ty e) 0 σ e

/-- To check the first tree in the first state, what stands at the path is
checked in the second state. -/
inductive Visits : CheckState → Expr → List Nat → CheckState → Expr → Prop where
  | here {σ e} : Visits σ e [] σ e
  | child {σ σ₁ σ₂ e d c i path} :
      Enters σ e i σ₁ d → Visits σ₁ d path σ₂ c → Visits σ e (i :: path) σ₂ c

theorem Enters.children {σ σ₁ : CheckState} {e d : Expr} {i : Nat} (h : Enters σ e i σ₁ d) :
    e.children[i]? = some d := by
  induction h with
  | later _ _ ih => exact ih
  | _ => rfl

theorem Visits.node? {σ σ₁ : CheckState} {e d : Expr} {path : List Nat} (h : Visits σ e path σ₁ d) :
    e.node? path = some d := by
  induction h with
  | here => rfl
  | child hd _ ih => rw [Expr.node?, hd.children, Option.bind_some, ih]

/-- At this place of the tree the checker found a type for `body` that is not
`target` but consistent with it. -/
def NeedsCast (σ : CheckState) (e : Expr) (path : List Nat) (target : Ty) (body : Expr) : Prop :=
  ∃ σ₁ d t σ₂, Visits σ e path σ₁ d ∧ d.check σ₁ = .ok (t, body) σ₂ ∧ t ≠ target ∧ t.consistent target = true

theorem NeedsCast.child {σ σ₁ : CheckState} {e d body : Expr} {i : Nat} {path : List Nat} {target : Ty}
    (hd : Enters σ e i σ₁ d) (h : NeedsCast σ₁ d path target body) : NeedsCast σ e (i :: path) target body := by
  obtain ⟨σ₂, c, t, σ₃, hv, hc, hne, hcons⟩ := h
  exact ⟨σ₂, c, t, σ₃, .child hd hv, hc, hne, hcons⟩

/-- Every cast in `e'` is needed where `e` is checked in `σ`, and none is around another. -/
def CastsNeeded (σ : CheckState) (e e' : Expr) : Prop :=
  ∀ path target body, e'.node? path = some (.cast target body) →
    body.isCast = false ∧ NeedsCast σ e (e'.uncast path) target body

/-- The trees are what the children of `e` from number `i` on are checked to, and
every cast in them is needed. -/
inductive ChildrenNeeded (σ : CheckState) (e : Expr) : Nat → List Expr → Prop where
  | nil {i} : ChildrenNeeded σ e i []
  | cons {i σ₁ d d' ds} :
      Enters σ e i σ₁ d → CastsNeeded σ₁ d d' → ChildrenNeeded σ e (i + 1) ds → ChildrenNeeded σ e i (d' :: ds)

namespace ChildrenNeeded

variable {σ σ₁ : CheckState} {e e' : Expr} {i : Nat} {ds : List Expr}

theorem get (h : ChildrenNeeded σ e i ds) {k : Nat} {d' : Expr} (hk : ds[k]? = some d') :
    ∃ σ₁ d, Enters σ e (i + k) σ₁ d ∧ CastsNeeded σ₁ d d' := by
  induction h generalizing k with
  | nil => cases hk
  | @cons i σ₁ d d₁ ds hd hneeded _ ih =>
    cases k with
    | zero =>
      cases hk
      exact ⟨σ₁, d, hd, hneeded⟩
    | succ k =>
      obtain ⟨σ₂, c, hc, hneeded'⟩ := ih hk
      exact ⟨σ₂, c, by rwa [← Nat.add_assoc, Nat.add_right_comm], hneeded'⟩

theorem later {es : List Expr} {ty : Ty} (he : e.check σ = .ok (ty, e') σ₁)
    (h : ChildrenNeeded σ₁ (.seq es) i ds) : ChildrenNeeded σ (.seq (e :: es)) (i + 1) ds := by
  induction h with
  | nil => exact .nil
  | cons hd hneeded _ ih => exact .cons (.later he hd) hneeded ih

theorem castsNeeded (h : ChildrenNeeded σ e 0 e'.children) (he : e'.isCast = false) : CastsNeeded σ e e' := by
  intro path target body hnode
  cases path with
  | nil =>
    cases hnode
    cases he
  | cons i path =>
    obtain ⟨d', hd', hnode⟩ := Option.bind_eq_some_iff.mp hnode
    obtain ⟨σ₁, d, hd, hneeded⟩ := h.get hd'
    rw [Nat.zero_add] at hd
    obtain ⟨hbody, hneeds⟩ := hneeded path target body hnode
    rw [Expr.uncast_cons he hd']
    exact ⟨hbody, hneeds.child hd⟩

end ChildrenNeeded

/-! ## Checked trees -/

section
variable {σ σ' : CheckState} {e e' : Expr} {ty target : Ty}

theorem Elab.ctorIdx (h : Elab σ e ty e' σ') : e'.ctorIdx = e.ctorIdx := by
  cases h <;> rfl

theorem Elab.isCast (h : Elab σ e ty e' σ') (hc : e.casts = 0) : e'.isCast = false := by
  cases h with
  | cast _ => simp [Expr.casts] at hc
  | _ => rfl

theorem Elab.erase_blank (h : Elab σ e ty e' σ') : e'.erase.blank = e.erase.blank := by
  induction h with
  | seqMore _ _ ih ihs =>
    simp only [Expr.erase, Expr.blank, Expr.eraseAll, Expr.blankAll, Expr.seq.injEq] at ih ihs ⊢
    rw [ih, ihs]
  | _ => simp_all [Expr.erase, Expr.blank, Expr.eraseAll, Expr.blankAll]

theorem Elab.castsNeeded (h : Elab σ e ty e' σ') (hc : e.casts = 0) (hs : ChildrenNeeded σ e 0 e'.children) :
    CastsNeeded σ e e' :=
  hs.castsNeeded (h.isCast hc)

theorem Elab.castsNeeded_cast (h : Elab σ e ty e' σ') (hc : e.casts = 0) (hs : ChildrenNeeded σ e 0 e'.children)
    (hne : ty ≠ target) (hcons : ty.consistent target = true) : CastsNeeded σ e (.cast target e') := by
  intro path goal body hnode
  cases path with
  | nil =>
    -- This is the cast itself; all others are in `e'`.
    cases hnode
    exact ⟨h.isCast hc, σ, e, ty, σ', .here, h.check, hne, hcons⟩
  | cons i path =>
    cases i with
    | zero => exact h.castsNeeded hc hs path goal body hnode
    | succ i => cases hnode

theorem Elab.castsNeeded_adjusted (h : Elab σ e ty e' σ') (hc : e.casts = 0)
    (hs : ChildrenNeeded σ e 0 e'.children) (hcons : target.consistent ty = true) :
    CastsNeeded σ e (e'.adjusted target ty) := by
  unfold Expr.adjusted
  by_cases heq : ty = target
  · rw [if_pos heq]
    exact h.castsNeeded hc hs
  · rw [if_neg heq]
    exact h.castsNeeded_cast hc hs heq (by rwa [Ty.consistent_symm])

end

theorem Elab.childrenNeeded {σ σ' : CheckState} {e e' : Expr} {ty : Ty} (h : Elab σ e ty e' σ')
    (hc : e.casts = 0) : ChildrenNeeded σ e 0 e'.children := by
  induction h with
  | const | var _ | seqNil => exact .nil
  | equality _ hl hr _ ihl ihr =>
    simp only [Expr.casts, Nat.add_eq_zero_iff] at hc
    have hl' := hl.castsNeeded hc.1 (ihl hc.1)
    have hr' := hr.castsNeeded hc.2 (ihr hc.2)
    exact .cons .left hl' (.cons (.right hl.check) hr' .nil)
  | integer _ hl hr hcl hcr ihl ihr =>
    simp only [Expr.casts, Nat.add_eq_zero_iff] at hc
    have hl' := hl.castsNeeded_adjusted hc.1 (ihl hc.1) hcl
    have hr' := hr.castsNeeded_adjusted hc.2 (ihr hc.2) hcr
    exact .cons .left hl' (.cons (.right hl.check) hr' .nil)
  | @cond _ _ _ _ _ _ _ _ _ _ _ tTy eTy ht hcc hthen helse iht ihthen ihelse =>
    simp only [Expr.casts, Nat.add_eq_zero_iff] at hc
    have ht' := ht.castsNeeded_adjusted hc.1.1 (iht hc.1.1) hcc
    -- The join is above both types, and so consistent with both.
    have hct : (tTy.join eTy).consistent tTy = true := Ty.consistent_of_le (Ty.le_join_left tTy eTy) .refl
    have hce : (tTy.join eTy).consistent eTy = true := Ty.consistent_of_le (Ty.le_join_right tTy eTy) .refl
    have hthen' := hthen.castsNeeded_adjusted hc.1.2 (ihthen hc.1.2) hct
    have helse' := helse.castsNeeded_adjusted hc.2 (ihelse hc.2) hce
    exact .cons .test ht' (.cons (.thenBranch ht.check) hthen'
      (.cons (.elseBranch ht.check hthen.check) helse' .nil))
  | lam hb hcb ih => exact .cons .body (hb.castsNeeded_adjusted hc (ih hc) hcb) .nil
  | app hf ha hca ihf iha =>
    simp only [Expr.casts, Nat.add_eq_zero_iff] at hc
    have hf' := hf.castsNeeded hc.1 (ihf hc.1)
    have ha' := ha.castsNeeded_adjusted hc.2 (iha hc.2) hca
    exact .cons .callee hf' (.cons (.argument hf.check) ha' .nil)
  | appDyn hf ha ihf iha =>
    simp only [Expr.casts, Nat.add_eq_zero_iff] at hc
    have ha' := ha.castsNeeded hc.2 (iha hc.2)
    refine .cons .callee ?_ (.cons (.argument hf.check) ha' .nil)
    exact hf.castsNeeded_cast hc.1 (ihf hc.1) (by simp) rfl
  | seqOne he ih =>
    simp only [Expr.casts, Expr.castsAll, Nat.add_zero] at hc
    exact .cons .first (he.castsNeeded hc (ih hc)) .nil
  | seqMore he hes ih ihs =>
    simp only [Expr.casts, Expr.castsAll, Nat.add_eq_zero_iff] at hc ihs
    exact .cons .first (he.castsNeeded hc.1 (ih hc.1)) ((ihs hc.2).later he.check)
  | decl hv hcv _ ih => exact .cons .declared (hv.castsNeeded_adjusted hc (ih hc) hcv) .nil
  | assign ht hv hcv iht ihv =>
    simp only [Expr.casts, Nat.add_eq_zero_iff] at hc
    have ht' := ht.castsNeeded hc.1 (iht hc.1)
    have hv' := hv.castsNeeded_adjusted hc.2 (ihv hc.2) hcv
    exact .cons .target ht' (.cons (.assigned ht.check) hv' .nil)
  | assignDyn ht hv iht ihv =>
    simp only [Expr.casts, Nat.add_eq_zero_iff] at hc
    have hv' := hv.castsNeeded hc.2 (ihv hc.2)
    refine .cons .target ?_ (.cons (.assigned ht.check) hv' .nil)
    exact ht.castsNeeded_cast hc.1 (iht hc.1) (by simp) rfl
  | deref ht ih => exact .cons .reference (ht.castsNeeded hc (ih hc)) .nil
  | derefDyn ht ih => exact .cons .reference (ht.castsNeeded_cast hc (ih hc) (by simp) rfl) .nil
  | alloc hv ih => exact .cons .contents (hv.castsNeeded hc (ih hc)) .nil
  | print hv ih => exact .cons .printed (hv.castsNeeded hc (ih hc)) .nil
  | cast _ _ => simp [Expr.casts] at hc

/-- Without its casts and with its slots empty, a checked tree is the tree that
was checked, and both have the same root. Each cast is around what some subtree
was checked to, no cast itself, and the type of that subtree is not the target
but consistent with it. -/
theorem check_inserts_needed_casts {e e' : Expr} {ty : Ty} {σ σ' : CheckState} (hc : e.casts = 0)
    (h : e.check σ = .ok (ty, e') σ') :
    e'.erase.blank = e.blank ∧ e'.ctorIdx = e.ctorIdx ∧
    ∀ path target body, e'.node? path = some (.cast target body) → body.isCast = false ∧
      ∃ σ₁ d t σ₂, e.node? (e'.uncast path) = some d ∧ Visits σ e (e'.uncast path) σ₁ d ∧
        d.check σ₁ = .ok (t, body) σ₂ ∧ t ≠ target ∧ t.consistent target = true := by
  have hE : Elab σ e ty e' σ' := .of_check e h
  refine ⟨?_, hE.ctorIdx, ?_⟩
  · rw [hE.erase_blank, Expr.erase_of_casts hc]
  · intro path target body hnode
    obtain ⟨hbody, σ₁, d, t, σ₂, hv, hd, hne, hcons⟩ :=
      hE.castsNeeded hc (hE.childrenNeeded hc) path target body hnode
    exact ⟨hbody, σ₁, d, t, σ₂, hv.node?, hv, hd, hne, hcons⟩

def chooseFunction : Expr :=
  .seq [
    .decl "d" (some .dyn) (.const (.int 1)),
    .app
      (.cond (.var "d") (.lam "x" .int none (.var "x")) (.lam "x" .int none (.const (.bool true))))
      (.deref (.var "d"))]

def chooseFunctionChecked : Expr :=
  .seq [
    .decl "d" (some .dyn) (.cast .dyn (.const (.int 1))),
    .app
      (.cond (.cast .bool (.var "d"))
        (.cast (.fn .int .dyn) (.lam "x" .int (some .int) (.var "x")))
        (.cast (.fn .int .dyn) (.lam "x" .int (some .bool) (.const (.bool true)))))
      (.cast .int (.deref (.cast (.ref .dyn) (.var "d"))))]

theorem check_inserts_needed_casts_chooseFunction :
    ∃ σ, chooseFunction.casts = 0 ∧ chooseFunction.check ⟨{}, #[]⟩ = .ok (.dyn, chooseFunctionChecked) σ ∧
      chooseFunctionChecked.erase.blank = chooseFunction.blank ∧
      chooseFunctionChecked.node? [1, 1, 0, 0] = some (.cast (.ref .dyn) (.var "d")) ∧
      ∃ σ₁ t σ₂, Visits ⟨{}, #[]⟩ chooseFunction [1, 1, 0] σ₁ (.var "d") ∧
        (Expr.var "d").check σ₁ = .ok (t, .var "d") σ₂ ∧ t ≠ .ref .dyn ∧ t.consistent (.ref .dyn) = true := by
  have hc : chooseFunction.casts = 0 := by decide
  have h : ∃ σ, chooseFunction.check ⟨{}, #[]⟩ = .ok (.dyn, chooseFunctionChecked) σ := ⟨_, rfl⟩
  obtain ⟨σ, h⟩ := h
  obtain ⟨hblank, -, hcasts⟩ := check_inserts_needed_casts hc h
  obtain ⟨-, σ₁, d, t, σ₂, hnode, hv, hd, hne, hcons⟩ := hcasts [1, 1, 0, 0] (.ref .dyn) (.var "d") rfl
  cases hnode
  exact ⟨σ, hc, h, hblank, rfl, σ₁, t, σ₂, hv, hd, hne, hcons⟩

end Gradual

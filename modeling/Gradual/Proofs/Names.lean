import Gradual.Expr.Basic

/-!
# Names in a tree

Which names a tree declares, in the scope it stands in and below it, and
whether some function can see a name rebound after it was made. A function
keeps the scopes around it, and those go on growing: a declaration that comes
after the function, in a scope that the function looks through, takes the
place of the binding further out that the function meant. `Expr.lexical` says
that no such declaration exists.
-/

namespace Gradual

namespace Expr

/-! ## Declarations -/

mutual

/-- The names that a tree declares in the scope it stands in, in order. -/
def lets : Expr → List String
  | .const _ => []
  | .var _ => []
  | .binary _ l r => l.lets ++ r.lets
  | .cond c _ _ => c.lets
  | .lam _ _ _ _ => []
  | .app f a => f.lets ++ a.lets
  | .seq es => letsAll es
  | .decl x _ v => v.lets ++ [x]
  | .assign t v => t.lets ++ v.lets
  | .deref t => t.lets
  | .alloc v _ => v.lets
  | .print v => v.lets
  | .cast _ e => e.lets

def letsAll : List Expr → List String
  | [] => []
  | e :: es => e.lets ++ letsAll es

end

mutual

/-- What `pick` gives at the nodes of a tree, all taken together. -/
def gather {α : Type} (pick : Expr → List α) : Expr → List α
  | .const c => pick (.const c)
  | .var x => pick (.var x)
  | .binary op l r => pick (.binary op l r) ++ (l.gather pick ++ r.gather pick)
  | .cond c t e => pick (.cond c t e) ++ (c.gather pick ++ (t.gather pick ++ e.gather pick))
  | .lam x xTy ret body => pick (.lam x xTy ret body) ++ body.gather pick
  | .app f a => pick (.app f a) ++ (f.gather pick ++ a.gather pick)
  | .seq es => pick (.seq es) ++ gatherAll pick es
  | .decl x ty v => pick (.decl x ty v) ++ v.gather pick
  | .assign t v => pick (.assign t v) ++ (t.gather pick ++ v.gather pick)
  | .deref t => pick (.deref t) ++ t.gather pick
  | .alloc v ty => pick (.alloc v ty) ++ v.gather pick
  | .print v => pick (.print v) ++ v.gather pick
  | .cast ty e => pick (.cast ty e) ++ e.gather pick

def gatherAll {α : Type} (pick : Expr → List α) : List Expr → List α
  | [] => []
  | e :: es => e.gather pick ++ gatherAll pick es

end

def declHere : Expr → List String
  | .decl x _ _ => [x]
  | _ => []

def paramHere : Expr → List String
  | .lam x _ _ _ => [x]
  | _ => []

def nameHere : Expr → List String
  | .var x => [x]
  | .decl x _ _ => [x]
  | .lam x _ _ _ => [x]
  | _ => []

def targetHere : Expr → List Ty
  | .cast ty _ => [ty]
  | _ => []

def annotationHere : Expr → List Ty
  | .lam _ xTy ret _ => xTy :: ret.toList
  | .decl _ ty _ => ty.toList
  | .alloc _ ty => ty.toList
  | _ => []

abbrev decls : Expr → List String := gather declHere

abbrev params : Expr → List String := gather paramHere

abbrev names : Expr → List String := gather nameHere

abbrev castTargets : Expr → List Ty := gather targetHere

abbrev annotations : Expr → List Ty := gather annotationHere

/-- Every declaration has a name of its own, which is no parameter either. -/
def DistinctLets (e : Expr) : Prop :=
  e.decls.Nodup ∧ ∀ x ∈ e.decls, x ∉ e.params

instance (e : Expr) : Decidable e.DistinctLets :=
  inferInstanceAs (Decidable (_ ∧ _))

mutual

theorem casts_eq_length : ∀ e : Expr, e.casts = e.castTargets.length
  | .const _ | .var _ => rfl
  | .binary _ l r | .app l r | .assign l r => by
    simp only [casts, gather, targetHere, List.nil_append, List.length_append]
    rw [casts_eq_length l, casts_eq_length r]
  | .cond c t e => by
    simp only [casts, gather, targetHere, List.nil_append, List.length_append]
    rw [casts_eq_length c, casts_eq_length t, casts_eq_length e, Nat.add_assoc]
  | .lam _ _ _ e | .decl _ _ e | .deref e | .alloc e _ | .print e => by
    simp only [casts, gather, targetHere, List.nil_append]
    exact casts_eq_length e
  | .seq es => by
    simp only [casts, gather, targetHere, List.nil_append]
    exact castsAll_eq_length es
  | .cast _ e => by
    simp only [casts, gather, targetHere, List.singleton_append, List.length_cons]
    rw [casts_eq_length e]

theorem castsAll_eq_length : ∀ es : List Expr, castsAll es = (gatherAll targetHere es).length
  | [] => rfl
  | e :: es => by
    simp only [castsAll, gatherAll, List.length_append]
    rw [casts_eq_length e, castsAll_eq_length es]

end

theorem castTargets_eq_nil {e : Expr} (h : e.casts = 0) : e.castTargets = [] := by
  rwa [casts_eq_length, List.length_eq_zero_iff] at h

end Expr

/-! ## Late shadowing -/

/-- What is known of a scope around a place in a tree. -/
structure Outline where
  bound : List String
  lets : List String
  /-- The place is in the same function body, so it is left before the scope grows. -/
  live : Bool

def Outline.freeze (o : Outline) : Outline :=
  { o with live := false }

/-- Is there a scope that declares `x` too late for a function that looks
through it and finds `x` further out? -/
def shadowedLate (x : String) : List Outline → Bool
  | [] => false
  | o :: rest =>
    !o.bound.contains x &&
      ((!o.live && o.lets.contains x && rest.any (·.bound.contains x)) || shadowedLate x rest)

namespace Expr

mutual

/-- No function in the tree has a name shadowed late. The tree stands in a
scope that declares `lets` and binds `bound` so far. -/
def lexicalIn (around : List Outline) (lets bound : List String) : Expr → Bool
  | .const _ => true
  | .var x => bound.contains x || !shadowedLate x around
  | .binary _ l r => l.lexicalIn around lets bound && r.lexicalIn around lets (l.lets.reverse ++ bound)
  | .cond c t e =>
    let inner := ⟨c.lets.reverse ++ bound, lets, true⟩ :: around
    c.lexicalIn around lets bound && (t.lexicalIn inner t.lets [] && e.lexicalIn inner e.lets [])
  | .lam x _ _ body =>
    body.lexicalIn ((⟨bound, lets, true⟩ :: around).map Outline.freeze) body.lets [x]
  | .app f a => f.lexicalIn around lets bound && a.lexicalIn around lets (f.lets.reverse ++ bound)
  | .seq es => lexicalAll around lets bound es
  | .decl _ _ v => v.lexicalIn around lets bound
  | .assign t v => t.lexicalIn around lets bound && v.lexicalIn around lets (t.lets.reverse ++ bound)
  | .deref t => t.lexicalIn around lets bound
  | .alloc v _ => v.lexicalIn around lets bound
  | .print v => v.lexicalIn around lets bound
  | .cast _ e => e.lexicalIn around lets bound

def lexicalAll (around : List Outline) (lets bound : List String) : List Expr → Bool
  | [] => true
  | e :: es => e.lexicalIn around lets bound && lexicalAll around lets (e.lets.reverse ++ bound) es

end

def lexical (e : Expr) : Bool :=
  e.lexicalIn [] e.lets []

mutual

/-- The names that a tree looks up beyond the scope it stands in, which binds
`bound` so far. -/
def lookups (bound : List String) : Expr → List String
  | .const _ => []
  | .var x => if bound.contains x then [] else [x]
  | .binary _ l r => l.lookups bound ++ r.lookups (l.lets.reverse ++ bound)
  | .cond c t e =>
    c.lookups bound ++
      (t.lookups [] ++ e.lookups []).filter (!(c.lets.reverse ++ bound).contains ·)
  | .lam x _ _ body => (body.lookups [x]).filter (!bound.contains ·)
  | .app f a => f.lookups bound ++ a.lookups (f.lets.reverse ++ bound)
  | .seq es => lookupsAll bound es
  | .decl _ _ v => v.lookups bound
  | .assign t v => t.lookups bound ++ v.lookups (t.lets.reverse ++ bound)
  | .deref t => t.lookups bound
  | .alloc v _ => v.lookups bound
  | .print v => v.lookups bound
  | .cast _ e => e.lookups bound

def lookupsAll (bound : List String) : List Expr → List String
  | [] => []
  | e :: es => e.lookups bound ++ lookupsAll (e.lets.reverse ++ bound) es

end

/-! ## Distinct names are never shadowed late -/

mutual

theorem lets_subset : ∀ (e : Expr), ∀ x ∈ e.lets, x ∈ e.decls
  | .const _, x, h => by simp [lets] at h
  | .var _, x, h => by simp [lets] at h
  | .binary _ l r, x, h | .app l r, x, h | .assign l r, x, h => by
    simp only [lets, List.mem_append] at h
    simp only [gather, declHere, List.nil_append, List.mem_append]
    exact h.imp (lets_subset l x) (lets_subset r x)
  | .cond c t e, x, h => by
    simp only [gather, declHere, List.nil_append, List.mem_append]
    exact .inl (lets_subset c x h)
  | .lam _ _ _ _, x, h => by simp [lets] at h
  | .seq es, x, h => by
    simp only [gather, declHere, List.nil_append]
    exact letsAll_subset es x h
  | .decl y _ v, x, h => by
    simp only [lets, List.mem_append, List.mem_singleton] at h
    simp only [gather, declHere, List.mem_append, List.mem_singleton]
    exact h.symm.imp id (lets_subset v x)
  | .deref t, x, h => lets_subset t x h
  | .alloc v _, x, h => lets_subset v x h
  | .print v, x, h => lets_subset v x h
  | .cast _ e, x, h => lets_subset e x h

theorem letsAll_subset : ∀ (es : List Expr), ∀ x ∈ letsAll es, x ∈ gatherAll declHere es
  | [], x, h => h
  | e :: es, x, h => by
    simp only [letsAll, List.mem_append] at h
    simp only [gatherAll, List.mem_append]
    exact h.imp (lets_subset e x) (letsAll_subset es x)

end

end Expr

/-- No name is declared in a scope and bound in one further out. The names `ds`,
declared from here on, are bound nowhere yet. -/
structure Apart (around : List Outline) (lets bound ds : List String) : Prop where
  outlines : around.Pairwise fun o o' => ∀ x ∈ o.lets, x ∉ o'.bound
  lets : ∀ x ∈ lets, ∀ o ∈ around, x ∉ o.bound
  bound : ∀ x ∈ ds, x ∉ bound
  outer : ∀ x ∈ ds, ∀ o ∈ around, x ∉ o.bound

theorem not_shadowedLate {x : String} : ∀ {os : List Outline},
    (os.Pairwise fun o o' => ∀ x ∈ o.lets, x ∉ o'.bound) → shadowedLate x os = false
  | [], _ => rfl
  | o :: os, h => by
    obtain ⟨ho, hos⟩ := List.pairwise_cons.mp h
    have hx : x ∈ o.lets → os.any (·.bound.contains x) = false := by
      intro hl
      simpa using fun o' ho' => ho o' ho' x hl
    simp only [shadowedLate, not_shadowedLate hos, Bool.or_false]
    by_cases hl : x ∈ o.lets
    · rw [hx hl, Bool.and_false, Bool.and_false]
    · simp [hl]

namespace Apart

variable {around : List Outline} {lets bound ds : List String}

theorem mono {ds' : List String} (h : Apart around lets bound ds) (hs : ∀ x ∈ ds', x ∈ ds) :
    Apart around lets bound ds' :=
  ⟨h.outlines, h.lets, fun x hx => h.bound x (hs x hx), fun x hx => h.outer x (hs x hx)⟩

theorem after {e : Expr} (h : Apart around lets bound ds) (hd : ∀ x ∈ ds, x ∉ e.decls) :
    Apart around lets (e.lets.reverse ++ bound) ds := by
  refine ⟨h.outlines, h.lets, ?_, h.outer⟩
  intro x hx hm
  rcases List.mem_append.mp hm with hm | hm
  · exact hd x hx (e.lets_subset x (List.mem_reverse.mp hm))
  · exact h.bound x hx hm

theorem branch {e : Expr} (h : Apart around lets bound e.decls) :
    Apart (⟨bound, lets, true⟩ :: around) e.lets [] e.decls := by
  have out : ∀ x ∈ e.decls, ∀ o ∈ (⟨bound, lets, true⟩ :: around : List Outline), x ∉ o.bound := by
    intro x hx o ho
    rcases List.mem_cons.mp ho with rfl | ho
    · exact h.bound x hx
    · exact h.outer x hx o ho
  refine ⟨List.pairwise_cons.mpr ⟨fun o ho x hx => h.lets x hx o ho, h.outlines⟩, ?_, by simp, out⟩
  exact fun x hx => out x (e.lets_subset x hx)

theorem body {e : Expr} {p : String} (h : Apart around lets bound e.decls) (hp : p ∉ e.decls) :
    Apart ((⟨bound, lets, true⟩ :: around).map Outline.freeze) e.lets [p] e.decls := by
  have hi := h.branch
  refine ⟨List.pairwise_map.mpr hi.outlines, ?_, ?_, ?_⟩
  · intro x hx o ho
    obtain ⟨o, hm, rfl⟩ := List.mem_map.mp ho
    exact hi.lets x hx o hm
  · intro x hx hm
    rw [List.mem_singleton.mp hm] at hx; exact hp hx
  · intro x hx o ho
    obtain ⟨o, hm, rfl⟩ := List.mem_map.mp ho
    exact hi.outer x hx o hm

end Apart

namespace Expr

theorem nodup_pair {l r : List String} (h : (l ++ r).Nodup) :
    l.Nodup ∧ r.Nodup ∧ ∀ x ∈ r, x ∉ l := by
  obtain ⟨hl, hr, hd⟩ := List.nodup_append.mp h
  exact ⟨hl, hr, fun x hx hx' => hd x hx' x hx rfl⟩

theorem disjoint_pair {l r p q : List String} (h : ∀ x ∈ l ++ r, x ∉ p ++ q) :
    (∀ x ∈ l, x ∉ p) ∧ ∀ x ∈ r, x ∉ q := by
  refine ⟨fun x hx hp => ?_, fun x hx hq => ?_⟩
  · exact h x (List.mem_append_left _ hx) (List.mem_append_left _ hp)
  · exact h x (List.mem_append_right _ hx) (List.mem_append_right _ hq)

theorem apart_pair {around : List Outline} {lets bound : List String} {l r : Expr}
    (h : Apart around lets bound (l.decls ++ r.decls)) (hd : (l.decls ++ r.decls).Nodup) :
    Apart around lets bound l.decls ∧ Apart around lets (l.lets.reverse ++ bound) r.decls := by
  obtain ⟨-, -, hlr⟩ := nodup_pair hd
  refine ⟨h.mono fun x hx => List.mem_append_left _ hx, ?_⟩
  exact (h.mono fun x hx => List.mem_append_right _ hx).after hlr

mutual

theorem lexicalIn_of_apart : ∀ (e : Expr) {around : List Outline} {lets bound : List String},
    e.decls.Nodup → (∀ x ∈ e.decls, x ∉ e.params) → Apart around lets bound e.decls →
      e.lexicalIn around lets bound = true
  | .const _, _, _, _, _, _, _ => rfl
  | .var x, _, _, _, _, _, h => by simp [lexicalIn, not_shadowedLate h.outlines]
  | .binary _ l r, _, _, _, hn, hp, h | .app l r, _, _, _, hn, hp, h | .assign l r, _, _, _, hn, hp, h => by
    simp only [gather, declHere, paramHere, List.nil_append] at hn hp h
    obtain ⟨hl, hr, -⟩ := nodup_pair hn
    obtain ⟨hpl, hpr⟩ := disjoint_pair hp
    obtain ⟨al, ar⟩ := apart_pair h hn
    simp only [lexicalIn, lexicalIn_of_apart l hl hpl al, lexicalIn_of_apart r hr hpr ar, Bool.and_self]
  | .cond c t e, _, _, _, hn, hp, h => by
    simp only [gather, declHere, paramHere, List.nil_append] at hn hp h
    obtain ⟨hc, hte, hcd⟩ := nodup_pair hn
    obtain ⟨ht, he, -⟩ := nodup_pair hte
    obtain ⟨hpc, hpte⟩ := disjoint_pair hp
    obtain ⟨hpt, hpe⟩ := disjoint_pair hpte
    have ac := h.mono fun x hx => List.mem_append_left _ hx
    have ate := (h.mono fun x hx => List.mem_append_right _ hx).after hcd
    have at' := (ate.mono fun x hx => List.mem_append_left _ hx).branch
    have ae := (ate.mono fun x hx => List.mem_append_right _ hx).branch
    simp only [lexicalIn, lexicalIn_of_apart c hc hpc ac, lexicalIn_of_apart t ht hpt at',
      lexicalIn_of_apart e he hpe ae, Bool.and_self]
  | .lam p _ _ b, _, _, _, hn, hp, h => by
    simp only [gather, declHere, paramHere, List.nil_append, List.singleton_append] at hn hp h
    have hpb : p ∉ b.decls := fun hm => hp p hm List.mem_cons_self
    simp only [lexicalIn]
    exact lexicalIn_of_apart b hn (fun x hx hq => hp x hx (List.mem_cons_of_mem _ hq)) (h.body hpb)
  | .seq es, _, _, _, hn, hp, h => by
    simp only [gather, declHere, paramHere, List.nil_append] at hn hp h
    exact lexicalAll_of_apart es hn hp h
  | .decl y _ v, _, _, _, hn, hp, h => by
    simp only [gather, declHere, paramHere, List.nil_append, List.singleton_append] at hn hp h
    refine lexicalIn_of_apart v (List.nodup_cons.mp hn).2 ?_ ?_
    · exact fun x hx => hp x (List.mem_cons_of_mem _ hx)
    · exact h.mono fun x hx => List.mem_cons_of_mem _ hx
  | .deref t, _, _, _, hn, hp, h => lexicalIn_of_apart t hn hp h
  | .alloc v _, _, _, _, hn, hp, h => lexicalIn_of_apart v hn hp h
  | .print v, _, _, _, hn, hp, h => lexicalIn_of_apart v hn hp h
  | .cast _ e, _, _, _, hn, hp, h => lexicalIn_of_apart e hn hp h

theorem lexicalAll_of_apart : ∀ (es : List Expr) {around : List Outline} {lets bound : List String},
    (gatherAll declHere es).Nodup →
      (∀ x ∈ gatherAll declHere es, x ∉ gatherAll paramHere es) →
      Apart around lets bound (gatherAll declHere es) → lexicalAll around lets bound es = true
  | [], _, _, _, _, _, _ => rfl
  | e :: es, _, _, _, hn, hp, h => by
    simp only [gatherAll] at hn hp h
    obtain ⟨he, hes, hd⟩ := nodup_pair hn
    obtain ⟨hpe, hpes⟩ := disjoint_pair hp
    have ae := h.mono fun x hx => List.mem_append_left _ hx
    have aes := (h.mono fun x hx => List.mem_append_right _ hx).after hd
    simp only [lexicalAll, lexicalIn_of_apart e he hpe ae, lexicalAll_of_apart es hes hpes aes, Bool.and_self]

end

theorem DistinctLets.lexical {e : Expr} (h : e.DistinctLets) : e.lexical = true :=
  lexicalIn_of_apart e h.1 h.2 ⟨List.Pairwise.nil, by simp, by simp, by simp⟩

end Expr

end Gradual

import Gradual.Expr.Basic

/-!
# Equality of trees

`Expr.same` compares two trees node by node; `Expr.same_iff` says that it
decides equality.
-/

namespace Gradual.Expr

mutual

def same : Expr → Expr → Bool
  | .const c, .const d => c == d
  | .var x, .var y => x == y
  | .binary op l r, .binary op' l' r' => op == op' && l.same l' && r.same r'
  | .cond c t e, .cond c' t' e' => c.same c' && t.same t' && e.same e'
  | .lam x xTy ret b, .lam y yTy ret' b' => x == y && xTy == yTy && ret == ret' && b.same b'
  | .app f a, .app f' a' => f.same f' && a.same a'
  | .seq es, .seq es' => sameAll es es'
  | .decl x ty v, .decl y ty' v' => x == y && ty == ty' && v.same v'
  | .assign t v, .assign t' v' => t.same t' && v.same v'
  | .deref t, .deref t' => t.same t'
  | .alloc v ty, .alloc v' ty' => v.same v' && ty == ty'
  | .print v, .print v' => v.same v'
  | .cast ty e, .cast ty' e' => ty == ty' && e.same e'
  | _, _ => false

def sameAll : List Expr → List Expr → Bool
  | [], [] => true
  | e :: es, e' :: es' => e.same e' && sameAll es es'
  | _, _ => false

end

mutual

theorem same_self : ∀ e : Expr, e.same e = true
  | .const _ => by simp [same]
  | .var _ => by simp [same]
  | .binary _ l r => by simp [same, same_self l, same_self r]
  | .cond c t e => by simp [same, same_self c, same_self t, same_self e]
  | .lam _ _ _ b => by simp [same, same_self b]
  | .app f a => by simp [same, same_self f, same_self a]
  | .seq es => by simp [same, sameAll_self es]
  | .decl _ _ v => by simp [same, same_self v]
  | .assign t v => by simp [same, same_self t, same_self v]
  | .deref t => by simp [same, same_self t]
  | .alloc v _ => by simp [same, same_self v]
  | .print v => by simp [same, same_self v]
  | .cast _ e => by simp [same, same_self e]

theorem sameAll_self : ∀ es : List Expr, sameAll es es = true
  | [] => rfl
  | e :: es => by simp [sameAll, same_self e, sameAll_self es]

end

mutual

theorem eq_of_same : ∀ a b : Expr, a.same b = true → a = b
  | .const _, b, h => by cases b <;> simp_all [same]
  | .var _, b, h => by cases b <;> simp_all [same]
  | .binary _ l r, b, h => by
    cases b with
    | binary _ l' r' =>
      simp only [same, Bool.and_eq_true, beq_iff_eq] at h
      rw [h.1.1, eq_of_same l l' h.1.2, eq_of_same r r' h.2]
    | _ => simp [same] at h
  | .cond c t e, b, h => by
    cases b with
    | cond c' t' e' =>
      simp only [same, Bool.and_eq_true] at h
      rw [eq_of_same c c' h.1.1, eq_of_same t t' h.1.2, eq_of_same e e' h.2]
    | _ => simp [same] at h
  | .lam _ _ _ body, b, h => by
    cases b with
    | lam _ _ _ body' =>
      simp only [same, Bool.and_eq_true, beq_iff_eq] at h
      rw [h.1.1.1, h.1.1.2, h.1.2, eq_of_same body body' h.2]
    | _ => simp [same] at h
  | .app f a, b, h => by
    cases b with
    | app f' a' =>
      simp only [same, Bool.and_eq_true] at h
      rw [eq_of_same f f' h.1, eq_of_same a a' h.2]
    | _ => simp [same] at h
  | .seq es, b, h => by
    cases b with
    | seq es' => rw [eq_of_sameAll es es' (by simpa [same] using h)]
    | _ => simp [same] at h
  | .decl _ _ v, b, h => by
    cases b with
    | decl _ _ v' =>
      simp only [same, Bool.and_eq_true, beq_iff_eq] at h
      rw [h.1.1, h.1.2, eq_of_same v v' h.2]
    | _ => simp [same] at h
  | .assign t v, b, h => by
    cases b with
    | assign t' v' =>
      simp only [same, Bool.and_eq_true] at h
      rw [eq_of_same t t' h.1, eq_of_same v v' h.2]
    | _ => simp [same] at h
  | .deref t, b, h => by
    cases b with
    | deref t' => rw [eq_of_same t t' (by simpa [same] using h)]
    | _ => simp [same] at h
  | .alloc v _, b, h => by
    cases b with
    | alloc v' _ =>
      simp only [same, Bool.and_eq_true, beq_iff_eq] at h
      rw [eq_of_same v v' h.1, h.2]
    | _ => simp [same] at h
  | .print v, b, h => by
    cases b with
    | print v' => rw [eq_of_same v v' (by simpa [same] using h)]
    | _ => simp [same] at h
  | .cast _ e, b, h => by
    cases b with
    | cast _ e' =>
      simp only [same, Bool.and_eq_true, beq_iff_eq] at h
      rw [h.1, eq_of_same e e' h.2]
    | _ => simp [same] at h

theorem eq_of_sameAll : ∀ es es' : List Expr, sameAll es es' = true → es = es'
  | [], [], _ => rfl
  | [], _ :: _, h => by simp [sameAll] at h
  | _ :: _, [], h => by simp [sameAll] at h
  | e :: es, e' :: es', h => by
    simp only [sameAll, Bool.and_eq_true] at h
    rw [eq_of_same e e' h.1, eq_of_sameAll es es' h.2]

end

theorem same_iff {a b : Expr} : a.same b = true ↔ a = b :=
  ⟨eq_of_same a b, fun h => h ▸ same_self a⟩

instance : DecidableEq Expr := fun _ _ => decidable_of_iff _ same_iff

end Gradual.Expr

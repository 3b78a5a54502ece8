import Gradual.Scope.Basic

/-!
# Scope trees

Scopes nest, and several may share the scope around them: every closure keeps
the scope it was made in. So scopes live in a tree and are referred to by
chains. A chain lists inner scopes from the innermost outwards; the global
scope ends every chain and is not listed.
-/

namespace Gradual

/-- The inner scopes of a chain, innermost first. The global scope is `[]`. -/
abbrev Chain := List Nat

/-- The number of scopes on a chain, the global one included. -/
def Chain.depth : Chain → Nat
  | [] => 1
  | _ :: c => 1 + Chain.depth c

structure ScopeTree (V : Type) where
  global : Scope V := {}
  inner : Array (Scope V) := #[]

namespace ScopeTree

variable {V : Type}

def scope (t : ScopeTree V) : Chain → Scope V
  | [] => t.global
  | i :: _ => t.inner.getD i {}

def modify (t : ScopeTree V) (f : Scope V → Scope V) : Chain → ScopeTree V
  | [] => { t with global := f t.global }
  | i :: _ => { t with inner := t.inner.modify i f }

def grow (t : ScopeTree V) (c : Chain) (s : Scope V) : Chain × ScopeTree V :=
  (t.inner.size :: c, { t with inner := t.inner.push s })

/-- The binding of a name in the innermost scope of the chain that has one. -/
def find? (t : ScopeTree V) : Chain → String → Option V
  | [], x => t.global.find? x
  | i :: c, x =>
    match (t.scope (i :: c)).find? x with
    | some v => some v
    | none => t.find? c x

def resolve (t : ScopeTree V) (c : Chain) (x : String) : Except ScopeError V :=
  match t.find? c x with
  | some v => .ok v
  | none => .error (.unbound x)

/-- Some scope of the chain binds the name. -/
def binds (t : ScopeTree V) : Chain → String → Bool
  | [], x => t.global.binds x
  | i :: c, x => (t.scope (i :: c)).binds x || t.binds c x

def declare (t : ScopeTree V) (c : Chain) (x : String) (v : V) :
    Except ScopeError (ScopeTree V) :=
  ((t.scope c).declare x v).map fun s => t.modify (fun _ => s) c

/-- Replaces the binding of a name in the innermost scope that has one; a name
without a binding is bound in the global scope. -/
def update (t : ScopeTree V) : Chain → String → V → ScopeTree V
  | [], x, v => t.modify (·.put x v) []
  | i :: c, x, v =>
    if (t.scope (i :: c)).binds x then t.modify (·.put x v) (i :: c) else t.update c x v

theorem modify_scope (t : ScopeTree V) (f : Scope V → Scope V) (c : Chain) :
    t.modify (fun _ => f (t.scope c)) c = t.modify f c := by
  cases c with
  | nil => rfl
  | cons i c =>
    simp only [modify, scope]
    congr 1
    apply Array.ext
    · simp
    · intro j _ hj
      simp only [Array.getElem_modify]
      split
      · subst j
        have hi : i < t.inner.size := by simpa using hj
        simp [Array.getD, hi]
      · rfl

theorem declare_eq (t : ScopeTree V) (c : Chain) (x : String) (v : V) :
    t.declare c x v =
      if (t.scope c).binds x then .error (.redeclared x) else .ok (t.modify (·.insert x v) c) := by
  unfold declare Scope.declare
  split
  · rfl
  · exact congrArg Except.ok (t.modify_scope (·.insert x v) c)

end ScopeTree

end Gradual

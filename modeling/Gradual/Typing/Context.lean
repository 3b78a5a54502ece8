import Gradual.Scope.Basic
import Gradual.Ty.Basic

/-!
# Typing contexts

The scopes around the place that is being checked. Checking opens a scope for
a function body or a branch and leaves it at the end, so a context is a plain
stack of scopes with the global scope at the bottom.
-/

namespace Gradual

structure Context where
  current : Scope Ty := {}
  /-- The scopes around the current one, innermost first. -/
  outer : List (Scope Ty) := []

namespace Context

/-- The binding of a name in the innermost of `scopes` that has one. -/
def findIn (x : String) : List (Scope Ty) → Option Ty
  | [] => none
  | s :: rest =>
    match s.find? x with
    | some ty => some ty
    | none => findIn x rest

def find? (Γ : Context) (x : String) : Option Ty :=
  findIn x (Γ.current :: Γ.outer)

def resolve (Γ : Context) (x : String) : Except ScopeError Ty :=
  match Γ.find? x with
  | some ty => .ok ty
  | none => .error (.unbound x)

def declare (Γ : Context) (x : String) (ty : Ty) : Except ScopeError Context :=
  match Γ.current.declare x ty with
  | .ok s => .ok { Γ with current := s }
  | .error e => .error e

def push (Γ : Context) : Context :=
  ⟨{}, Γ.current :: Γ.outer⟩

/-- Leaves the current scope; the global scope stays. -/
def pop (Γ : Context) : Context :=
  match Γ.outer with
  | [] => Γ
  | s :: rest => ⟨s, rest⟩

def declareLast (x : String) (ty : Ty) (s : Scope Ty) :
    List (Scope Ty) → Except ScopeError (Scope Ty × List (Scope Ty))
  | [] => do return (← s.declare x ty, [])
  | s' :: rest => do
    let (s', rest) ← declareLast x ty s' rest
    return (s, s' :: rest)

/-- Declares a name in the global scope, wherever the current one is. -/
def declareGlobal (Γ : Context) (x : String) (ty : Ty) : Except ScopeError Context := do
  let (s, rest) ← declareLast x ty Γ.current Γ.outer
  return ⟨s, rest⟩

end Context

end Gradual

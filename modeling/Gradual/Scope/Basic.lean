/-!
# Scopes

A scope binds names. Declaring a name adds a binding and fails if the scope
has one already; putting a name replaces its binding.
-/

namespace Gradual

inductive ScopeError where
  | unbound (name : String)
  | redeclared (name : String)
deriving DecidableEq

def ScopeError.text : ScopeError → String
  | .unbound x => "unbound name: " ++ x
  | .redeclared x => "redeclaring existing name: " ++ x

/-- The bindings of one scope, the newest first. -/
structure Scope (V : Type) where
  bindings : List (String × V) := []

namespace Scope

variable {V : Type}

def find? (s : Scope V) (x : String) : Option V :=
  s.bindings.lookup x

def binds (s : Scope V) (x : String) : Bool :=
  (s.find? x).isSome

def insert (s : Scope V) (x : String) (v : V) : Scope V :=
  ⟨(x, v) :: s.bindings⟩

def declare (s : Scope V) (x : String) (v : V) : Except ScopeError (Scope V) :=
  if s.binds x then .error (.redeclared x) else .ok (s.insert x v)

/-- Binds `x` to `v` in place of what it was bound to. -/
def put (s : Scope V) (x : String) (v : V) : Scope V :=
  ⟨(x, v) :: s.bindings.filter (·.1 != x)⟩

end Scope

end Gradual

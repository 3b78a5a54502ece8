import Gradual.Scope.Basic
import Gradual.Ty.Text

/-!
# Runtime errors

A value that an error speaks of is kept as the text it had when the error
arose, since the cells it leads to may change afterwards.
-/

namespace Gradual

inductive RuntimeError where
  | scope (cause : ScopeError)
  | castFailed (shown : String) (actual target : Ty)
  | divisionByZero
  | stackOverflow (limit : Nat)
  | io (reason : String)
  /-- A value of the wrong kind, which a checked tree does not meet. -/
  | internal (expected kind shown : String)
  /-- A tree that was not checked before it was run. -/
  | unchecked (node : String)
deriving DecidableEq

namespace RuntimeError

def text : RuntimeError → String
  | .scope e => e.text
  | .castFailed shown actual target =>
    "cast failed: " ++ shown ++ " of type " ++ actual.text ++ " is not consistent with "
      ++ target.text
  | .divisionByZero => "division by zero"
  | .stackOverflow limit => "stack overflow: more than " ++ toString limit ++ " nested calls"
  | .io reason => "IO error: " ++ reason
  | .internal expected kind shown =>
    "internal error: expected " ++ expected ++ ", got " ++ kind ++ " `" ++ shown ++ "`"
  | .unchecked node => node ++ " evaluated before type checking"

def message (e : RuntimeError) : String :=
  "Runtime error: " ++ e.text

def kind : RuntimeError → String
  | .scope (.unbound _) => "UnboundName"
  | .scope (.redeclared _) => "Redeclaration"
  | .castFailed _ _ _ => "Cast"
  | .divisionByZero => "DivisionByZero"
  | .stackOverflow _ => "StackOverflow"
  | .io _ => "Io"
  | .internal _ _ _ => "Internal"
  | .unchecked _ => "NotTypechecked"

/-- Internal errors speak of the tree that was run, not of what it did. -/
def isInternal : RuntimeError → Bool
  | .internal _ _ _ => true
  | .unchecked _ => true
  | _ => false

end RuntimeError

end Gradual

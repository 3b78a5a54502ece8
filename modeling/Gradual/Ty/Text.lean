import Gradual.Ty.Basic

/-!
# The text of a type

Arrows group to the right, so a function type stands in parentheses before an
arrow and after `ref`.
-/

namespace Gradual.Ty

def parenthesize (grouped : Bool) (s : String) : String :=
  if grouped then "(" ++ s ++ ")" else s

def text : Ty → String
  | .dyn => "?"
  | .bool => "Bool"
  | .int => "Int"
  | .string => "String"
  | .unit => "()"
  | .fn a b => parenthesize a.isFn a.text ++ " -> " ++ b.text
  | .ref c => "ref " ++ parenthesize c.isFn c.text

/-- The type spelled by its constructors, as it stands in the description of a
value. -/
def outline : Ty → String
  | .dyn => "Any"
  | .bool => "Bool"
  | .int => "Int"
  | .string => "String"
  | .unit => "Unit"
  | .fn a b => "Closure(" ++ a.outline ++ ", " ++ b.outline ++ ")"
  | .ref c => "Ref(" ++ c.outline ++ ")"

end Gradual.Ty

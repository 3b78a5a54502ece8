import Gradual.Expr.Basic
import Gradual.Scope.Basic
import Gradual.Ty.Text

/-!
# Type errors
-/

namespace Gradual

inductive Site where
  | operand (op : BinOp)
  | condition
  | body (param : String)
  | argument
  | declaration (name : String)
  | assignment
  | other (description : String)
deriving DecidableEq

def Site.text : Site → String
  | .operand op => "operand of `" ++ op.symbol ++ "`"
  | .condition => "if condition"
  | .body x => "body of function over `" ++ x ++ "`"
  | .argument => "function argument"
  | .declaration x => "declaration of `" ++ x ++ "`"
  | .assignment => "assignment"
  | .other s => s

inductive TypeError where
  | scope (cause : ScopeError)
  | mismatch (site : Site) (expected found : Ty)
  | notAFunction (found : Ty)
  | notAReference (found : Ty)
deriving DecidableEq

namespace TypeError

def text : TypeError → String
  | .scope e => e.text
  | .mismatch site expected found =>
    "type mismatch in " ++ site.text ++ ": expected " ++ expected.text ++ ", got " ++ found.text
  | .notAFunction found => "called a non-function of type " ++ found.text
  | .notAReference found => "expected a reference, got " ++ found.text

def message (e : TypeError) : String :=
  "type error: " ++ e.text

def kind : TypeError → String
  | .scope (.unbound _) => "UnboundName"
  | .scope (.redeclared _) => "Redeclaration"
  | .mismatch _ _ _ => "TypeMismatch"
  | .notAFunction _ => "NotAFunction"
  | .notAReference _ => "NotAReference"

end TypeError

end Gradual

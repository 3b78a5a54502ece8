import Gradual.Expr.Basic
import Gradual.Ty.Text

/-!
# The text of a tree
-/

namespace Gradual

namespace Constant

def text : Constant → String
  | .bool b => if b then "true" else "false"
  | .int n => toString n.toInt
  | .str s => Text.quote s
  | .unit => "()"

end Constant

namespace Expr

/-- A callee that would run into its argument stands in parentheses. -/
def isOpenCallee : Expr → Bool
  | .lam _ _ _ _ => true
  | .cast _ _ => true
  | _ => false

/-- `: T` where a type is given, and nothing where it is not. -/
def ascription : Option Ty → String
  | some ty => ": " ++ ty.text
  | none => ""

mutual

def text : Expr → String
  | .const c => c.text
  | .var x => x
  | .binary op l r => "(" ++ l.text ++ " " ++ op.symbol ++ " " ++ r.text ++ ")"
  | .cond c t e =>
    "if " ++ c.text ++ " \x7b " ++ t.text ++ " \x7d else \x7b " ++ e.text ++ " \x7d"
  | .lam x xTy ret body =>
    "fn(" ++ x ++ ": " ++ xTy.text ++ ")" ++ ascription ret ++ " \x7b " ++ body.text ++ " \x7d"
  | .app f a => Ty.parenthesize f.isOpenCallee f.text ++ "(" ++ a.text ++ ")"
  | .seq [] => "\x7b\x7d"
  | .seq (e :: es) => "\x7b " ++ e.text ++ textRest es ++ " \x7d"
  | .decl x ty v => "let " ++ x ++ ascription ty ++ " = " ++ v.text
  | .assign t v => t.text ++ " := " ++ v.text
  | .deref t => "!" ++ t.text
  | .alloc v _ => "ref " ++ v.text
  | .print v => "print(" ++ v.text ++ ")"
  | .cast ty e => "<" ++ ty.text ++ ">" ++ e.text

def textRest : List Expr → String
  | [] => ""
  | e :: es => "; " ++ e.text ++ textRest es

end

end Expr

end Gradual

import Gradual.Expr.Basic
import Gradual.Json.Basic

/-!
# Trees as JSON

A constructor is an object with one field named for it, or just its name if it
has no content. All fields are written; a type that is not given is `null`.
-/

namespace Gradual

def Ty.toJson : Ty → Json
  | .dyn => .str "Any"
  | .bool => .str "Bool"
  | .int => .str "Int"
  | .string => .str "String"
  | .unit => .str "Unit"
  | .fn a b => .obj [("Closure", .arr [a.toJson, b.toJson])]
  | .ref c => .obj [("Ref", c.toJson)]

def BinOp.toJson : BinOp → Json
  | .add => .str "Add"
  | .sub => .str "Sub"
  | .mul => .str "Mul"
  | .div => .str "Div"
  | .mod => .str "Mod"
  | .gt => .str "Gt"
  | .ge => .str "Ge"
  | .lt => .str "Lt"
  | .le => .str "Le"
  | .eq => .str "Eq"
  | .ne => .str "Ne"

def Constant.toJson : Constant → Json
  | .bool b => .obj [("Bool", .bool b)]
  | .int n => .obj [("Int", .int n.toInt)]
  | .str s => .obj [("Str", .str s)]
  | .unit => .str "Unit"

namespace Expr

def optionalToJson : Option Ty → Json
  | some ty => ty.toJson
  | none => .null

mutual

def toJson : Expr → Json
  | .const c => .obj [("Value", c.toJson)]
  | .var x => .obj [("Var", .str x)]
  | .binary op l r =>
    .obj [("BinOp", .obj [("op", op.toJson), ("lhs", l.toJson), ("rhs", r.toJson)])]
  | .cond c t e =>
    .obj [("If", .obj [("cond", c.toJson), ("then_branch", t.toJson), ("else_branch", e.toJson)])]
  | .lam x xTy ret body =>
    .obj [("FunctionDecl", .obj [("param", .str x), ("param_type", xTy.toJson),
      ("return_type", optionalToJson ret), ("body", body.toJson)])]
  | .app f a => .obj [("FunctionApp", .obj [("callee", f.toJson), ("arg", a.toJson)])]
  | .seq es => .obj [("Seq", .arr (toJsonAll es))]
  | .decl x ty v =>
    .obj [("Let", .obj [("name", .str x), ("declared_type", optionalToJson ty),
      ("value", v.toJson)])]
  | .assign t v => .obj [("Assign", .obj [("target", t.toJson), ("value", v.toJson)])]
  | .deref t => .obj [("Deref", t.toJson)]
  | .alloc v ty => .obj [("Ref", .obj [("value", v.toJson), ("cell_type", optionalToJson ty)])]
  | .print v => .obj [("Print", v.toJson)]
  | .cast ty e => .obj [("Cast", .obj [("target", ty.toJson), ("body", e.toJson)])]

def toJsonAll : List Expr → List Json
  | [] => []
  | e :: es => e.toJson :: toJsonAll es

end

end Expr

end Gradual

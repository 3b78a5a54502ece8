import Gradual.Expr.Text
import Gradual.Scope.Tree

/-!
# Values

Closures and references have an identity: two of them are the same value only
if they were made at the same moment. A reference leads to a cell; the cells
live in an array and a reference is an index into it. The text of a reference
follows the cells, so a cell that leads back to itself has none.
-/

namespace Gradual

structure Closure where
  id : Nat
  param : String
  paramTy : Ty
  resultTy : Ty
  body : Expr
  scope : Chain

inductive Value where
  | bool (b : Bool)
  | int (n : Int64)
  | str (s : String)
  | unit
  | closure (c : Closure)
  | ref (cell : Nat)

structure Cell where
  ty : Ty
  contents : Value

abbrev Cells := Array Cell

namespace Value

def ofConstant : Constant → Value
  | .bool b => .bool b
  | .int n => .int n
  | .str s => .str s
  | .unit => .unit

/-- Closures and references are compared by identity, all else by content. -/
def same : Value → Value → Bool
  | .bool a, .bool b => a == b
  | .int a, .int b => a == b
  | .str a, .str b => a == b
  | .unit, .unit => true
  | .closure c, .closure d => c.id == d.id
  | .ref c, .ref d => c == d
  | _, _ => false

def kind : Value → String
  | .bool _ => "bool"
  | .int _ => "int"
  | .str _ => "string"
  | .unit => "()"
  | .closure _ => "closure"
  | .ref _ => "ref"

end Value

def Closure.text (c : Closure) : String :=
  "fn(" ++ c.param ++ ": " ++ c.paramTy.text ++ "): " ++ c.resultTy.text ++ " \x7b...\x7d"

namespace Cells

/-- The type of a cell, `?` for one that does not exist. -/
def cellTy (cells : Cells) (i : Nat) : Ty :=
  match cells[i]? with
  | some cell => cell.ty
  | none => .dyn

/-- What a cell holds, `()` for one that does not exist. -/
def contents (cells : Cells) (i : Nat) : Value :=
  match cells[i]? with
  | some cell => cell.contents
  | none => .unit

def write (cells : Cells) (i : Nat) (v : Value) : Cells :=
  cells.modify i fun cell => { cell with contents := v }

/-- The type a value has by itself. -/
def typeOf (cells : Cells) : Value → Ty
  | .bool _ => .bool
  | .int _ => .int
  | .str _ => .string
  | .unit => .unit
  | .closure c => .fn c.paramTy c.resultTy
  | .ref i => .ref (cells.cellTy i)

/-- The text of a value that is reached through at most `hops` cells. -/
def textWithin (cells : Cells) : Nat → Value → Option String
  | _, .bool b => some (Constant.bool b).text
  | _, .int n => some (Constant.int n).text
  | _, .str s => some s
  | _, .unit => some Constant.unit.text
  | _, .closure c => some c.text
  | 0, .ref _ => none
  | hops + 1, .ref i => ("ref " ++ ·) <$> textWithin cells hops (cells.contents i)

/-- The text of a value, or none if it leads into a cell that leads back to
itself: a path that meets no cell twice is no longer than there are cells. -/
def text? (cells : Cells) (v : Value) : Option String :=
  cells.textWithin cells.size v

/-- The text of a value. A value that leads into a cell that leads back to itself
has no text of finite length: a run that writes one out is outside the model, and
the text given here only makes `text` total. -/
def text (cells : Cells) (v : Value) : String :=
  (cells.text? v).getD "ref ..."

def outline (cells : Cells) : Value → String
  | .bool b => "Bool(" ++ (Constant.bool b).text ++ ")"
  | .int n => "Int(" ++ (Constant.int n).text ++ ")"
  | .str s => "Str(" ++ Text.quote s ++ ")"
  | .unit => "Unit"
  | .closure c =>
    "Closure(Closure \x7b param: " ++ Text.quote c.param ++ ", param_type: " ++ c.paramTy.outline
      ++ ", return_type: " ++ c.resultTy.outline ++ ", .. \x7d)"
  | .ref i => "Ref(Reference \x7b cell_type: " ++ (cells.cellTy i).outline ++ ", .. \x7d)"

end Cells

end Gradual

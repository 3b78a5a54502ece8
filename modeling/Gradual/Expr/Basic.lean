import Gradual.Ty.Basic
import Gradual.Text.Quoted

/-!
# Expressions

Operators, constants and expression trees, with the number of casts in a tree.
-/

namespace Gradual

/-! ## Operators -/

inductive BinOp where
  | add
  | sub
  | mul
  | div
  | mod
  | gt
  | ge
  | lt
  | le
  | eq
  | ne
deriving DecidableEq

namespace BinOp

def symbol : BinOp → String
  | .add => "+"
  | .sub => "-"
  | .mul => "*"
  | .div => "/"
  | .mod => "%"
  | .gt => ">"
  | .ge => ">="
  | .lt => "<"
  | .le => "<="
  | .eq => "=="
  | .ne => "!="

/-- Equality and inequality take operands of any type. -/
def isEquality : BinOp → Bool
  | .eq => true
  | .ne => true
  | _ => false

def isComparison : BinOp → Bool
  | .gt => true
  | .ge => true
  | .lt => true
  | .le => true
  | _ => false

def resultTy (op : BinOp) : Ty :=
  if op.isEquality || op.isComparison then .bool else .int

end BinOp

/-! ## Constants -/

/-- Integers are words of 64 bits. -/
inductive Constant where
  | bool (b : Bool)
  | int (n : Int64)
  | str (s : String)
  | unit
deriving DecidableEq

namespace Constant

def ty : Constant → Ty
  | .bool _ => .bool
  | .int _ => .int
  | .str _ => .string
  | .unit => .unit

end Constant

/-! ## Trees -/

inductive Expr where
  | const (c : Constant)
  | var (name : String)
  | binary (op : BinOp) (lhs rhs : Expr)
  | cond (test thenBranch elseBranch : Expr)
  /-- A function of one parameter. Checking fills in a missing result type. -/
  | lam (param : String) (paramTy : Ty) (resultTy : Option Ty) (body : Expr)
  | app (callee arg : Expr)
  /-- Evaluated in order; the value is that of the last, or `()` if there is none. -/
  | seq (items : List Expr)
  /-- Binds `name` in the scope the declaration stands in. -/
  | decl (name : String) (ty : Option Ty) (value : Expr)
  | assign (target value : Expr)
  | deref (target : Expr)
  /-- A new cell. Checking fills in its type. -/
  | alloc (value : Expr) (cellTy : Option Ty)
  | print (value : Expr)
  | cast (target : Ty) (body : Expr)

mutual

def Expr.casts : Expr → Nat
  | .const _ => 0
  | .var _ => 0
  | .binary _ l r => l.casts + r.casts
  | .cond c t e => c.casts + t.casts + e.casts
  | .lam _ _ _ body => body.casts
  | .app f a => f.casts + a.casts
  | .seq items => Expr.castsAll items
  | .decl _ _ v => v.casts
  | .assign t v => t.casts + v.casts
  | .deref t => t.casts
  | .alloc v _ => v.casts
  | .print v => v.casts
  | .cast _ e => e.casts + 1

def Expr.castsAll : List Expr → Nat
  | [] => 0
  | e :: es => e.casts + Expr.castsAll es

end

end Gradual

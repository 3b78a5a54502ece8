import Gradual.Expr.Basic
import Gradual.Json.Basic

/-!
# Trees from JSON

Decoding accepts what encoding writes. Beyond that a constructor without
content may have the content `null`, an optional type may be missing, and
fields that are not known are passed over.
-/

namespace Gradual

def Ty.ofJson? (j : Json) : Option Ty :=
  match _h : j.variant? with
  | some ("Any", .null) => some .dyn
  | some ("Bool", .null) => some .bool
  | some ("Int", .null) => some .int
  | some ("String", .null) => some .string
  | some ("Unit", .null) => some .unit
  | some ("Closure", .arr [a, b]) => do return .fn (← Ty.ofJson? a) (← Ty.ofJson? b)
  | some ("Ref", c) => do return .ref (← Ty.ofJson? c)
  | _ => none
termination_by sizeOf j
decreasing_by all_goals
  have := Json.sizeOf_variant? _h
  try simp only [Json.arr.sizeOf_spec, List.cons.sizeOf_spec] at this
  omega

def BinOp.ofJson? (j : Json) : Option BinOp :=
  match j.variant? with
  | some ("Add", .null) => some .add
  | some ("Sub", .null) => some .sub
  | some ("Mul", .null) => some .mul
  | some ("Div", .null) => some .div
  | some ("Mod", .null) => some .mod
  | some ("Gt", .null) => some .gt
  | some ("Ge", .null) => some .ge
  | some ("Lt", .null) => some .lt
  | some ("Le", .null) => some .le
  | some ("Eq", .null) => some .eq
  | some ("Ne", .null) => some .ne
  | _ => none

def Constant.ofJson? (j : Json) : Option Constant :=
  match j.variant? with
  | some ("Bool", .bool b) => some (.bool b)
  | some ("Int", n) => n.int64?.map .int
  | some ("Str", .str s) => some (.str s)
  | some ("Unit", .null) => some .unit
  | _ => none

namespace Expr

/-- A type that need not be given: a missing field or `null` is none. -/
def optionalTy? : Option Json → Option (Option Ty)
  | none => some none
  | some .null => some none
  | some j => (Ty.ofJson? j).map some

def ofJson? (j : Json) : Option Expr :=
  match _h : j.variant? with
  | some ("Value", c) => (Constant.ofJson? c).map .const
  | some ("Var", .str x) => some (.var x)
  | some ("BinOp", .obj fields) => do
    let op ← fields.lookup "op" >>= BinOp.ofJson?
    let ⟨l, _⟩ ← Json.member? "lhs" fields
    let ⟨r, _⟩ ← Json.member? "rhs" fields
    return .binary op (← ofJson? l) (← ofJson? r)
  | some ("If", .obj fields) => do
    let ⟨c, _⟩ ← Json.member? "cond" fields
    let ⟨t, _⟩ ← Json.member? "then_branch" fields
    let ⟨e, _⟩ ← Json.member? "else_branch" fields
    return .cond (← ofJson? c) (← ofJson? t) (← ofJson? e)
  | some ("FunctionDecl", .obj fields) => do
    let x ← fields.lookup "param" >>= Json.str?
    let xTy ← fields.lookup "param_type" >>= Ty.ofJson?
    let ret ← optionalTy? (fields.lookup "return_type")
    let ⟨body, _⟩ ← Json.member? "body" fields
    return .lam x xTy ret (← ofJson? body)
  | some ("FunctionApp", .obj fields) => do
    let ⟨f, _⟩ ← Json.member? "callee" fields
    let ⟨a, _⟩ ← Json.member? "arg" fields
    return .app (← ofJson? f) (← ofJson? a)
  | some ("Seq", .arr items) => do
    return .seq (← items.attach.mapM fun ⟨item, _⟩ => ofJson? item)
  | some ("Let", .obj fields) => do
    let x ← fields.lookup "name" >>= Json.str?
    let ty ← optionalTy? (fields.lookup "declared_type")
    let ⟨v, _⟩ ← Json.member? "value" fields
    return .decl x ty (← ofJson? v)
  | some ("Assign", .obj fields) => do
    let ⟨t, _⟩ ← Json.member? "target" fields
    let ⟨v, _⟩ ← Json.member? "value" fields
    return .assign (← ofJson? t) (← ofJson? v)
  | some ("Deref", t) => do return .deref (← ofJson? t)
  | some ("Ref", .obj fields) => do
    let ⟨v, _⟩ ← Json.member? "value" fields
    let ty ← optionalTy? (fields.lookup "cell_type")
    return .alloc (← ofJson? v) ty
  | some ("Print", v) => do return .print (← ofJson? v)
  | some ("Cast", .obj fields) => do
    let ty ← fields.lookup "target" >>= Ty.ofJson?
    let ⟨e, _⟩ ← Json.member? "body" fields
    return .cast ty (← ofJson? e)
  | _ => none
termination_by sizeOf j
decreasing_by all_goals
  have := Json.sizeOf_variant? _h
  try simp only [Json.arr.sizeOf_spec, Json.obj.sizeOf_spec] at this
  first
  | omega
  | have := List.sizeOf_lt_of_mem (by assumption)
    omega

end Expr

end Gradual

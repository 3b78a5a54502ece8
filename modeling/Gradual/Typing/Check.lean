import Gradual.Expr.Basic
import Gradual.Log
import Gradual.Ty.Consistency
import Gradual.Typing.Context
import Gradual.Typing.Error

/-!
# The checker

Checking a tree gives its type and the tree with casts inserted wherever a
value of unknown type meets a place that needs a definite one, and with the
types of functions and cells filled in. Declarations are added to the
context; those made before a failure stay.
-/

namespace Gradual

structure CheckState where
  context : Context
  log : Log := #[]

abbrev CheckM := EStateM TypeError CheckState

namespace CheckM

def emit (e : Event) : CheckM Unit :=
  modify fun s => { s with log := s.log.push e }

def resolve (x : String) : CheckM Ty := do
  match (← get).context.resolve x with
  | .ok ty => pure ty
  | .error e => throw (.scope e)

def declare (x : String) (ty : Ty) : CheckM Unit := do
  match (← get).context.declare x ty with
  | .ok Γ => modify fun s => { s with context := Γ }
  | .error e => throw (.scope e)

/-- Runs `m` in a new scope and leaves it again, also when `m` fails. -/
def inNewScope {α : Type} (m : CheckM α) : CheckM α := fun s =>
  match m { s with context := s.context.push } with
  | .ok a s => .ok a { s with context := s.context.pop }
  | .error e s => .error e { s with context := s.context.pop }

def insertCast (rule : CastRule) (target : Ty) (e : Expr) : CheckM Expr := do
  emit (.castInserted rule target)
  return .cast target e

/-- A tree of type `found` as one of type `target`. -/
def adjust (rule : CastRule) (target found : Ty) (e : Expr) : CheckM Expr :=
  if found = target then pure e else insertCast rule target e

def requireConsistent (site : Site) (expected found : Ty) : CheckM Unit :=
  unless expected.consistent found do throw (.mismatch site expected found)

/-- As `adjust`, at a place where the two types have to be consistent. -/
def coerce (rule : CastRule) (site : Site) (target found : Ty) (e : Expr) : CheckM Expr := do
  requireConsistent site target found
  adjust rule target found e

/-- The callee `f` of type `fTy` as a function, with its domain and codomain.
A callee of unknown type is taken for a function of the argument at hand. -/
def asFunction (argTy fTy : Ty) (f : Expr) : CheckM (Ty × Ty × Expr) :=
  match fTy with
  | .fn dom cod => pure (dom, cod, f)
  | .dyn => do return (argTy, .dyn, ← insertCast .callee (.fn argTy .dyn) f)
  | found => throw (.notAFunction found)

/-- A tree of type `ty` as a reference, with the type of its cell. One of
unknown type is taken for a reference to a `cellTy`. -/
def asReference (rule : CastRule) (cellTy ty : Ty) (e : Expr) : CheckM (Ty × Expr) :=
  match ty with
  | .ref cell => pure (cell, e)
  | .dyn => do return (cellTy, ← insertCast rule (.ref cellTy) e)
  | found => throw (.notAReference found)

end CheckM

open CheckM

mutual

def Expr.check : Expr → CheckM (Ty × Expr)
  | .const c => pure (c.ty, .const c)
  | .var x => do return (← resolve x, .var x)
  | .binary op l r => do
    let (lTy, l) ← l.check
    let (rTy, r) ← r.check
    if op.isEquality then
      requireConsistent (.operand op) lTy rTy
      return (.bool, .binary op l r)
    else
      let l ← coerce .operand (.operand op) .int lTy l
      let r ← coerce .operand (.operand op) .int rTy r
      return (op.resultTy, .binary op l r)
  | .cond c t e => do
    let (cTy, c) ← c.check
    let c ← coerce .condition .condition .bool cTy c
    let (tTy, t) ← inNewScope t.check
    let (eTy, e) ← inNewScope e.check
    let ty := tTy.join eTy
    let t ← adjust .thenBranch ty tTy t
    let e ← adjust .elseBranch ty eTy e
    return (ty, .cond c t e)
  | .lam x xTy ret body => do
    let (bodyTy, body) ← inNewScope do
      declare x xTy
      body.check
    let ret := ret.getD bodyTy
    let body ← coerce .body (.body x) ret bodyTy body
    return (.fn xTy ret, .lam x xTy (some ret) body)
  | .app f a => do
    let (fTy, f) ← f.check
    let (aTy, a) ← a.check
    let (dom, cod, f) ← asFunction aTy fTy f
    let a ← coerce .argument .argument dom aTy a
    return (cod, .app f a)
  | .seq es => do
    let (ty, es) ← Expr.checkSeq .unit es
    return (ty, .seq es)
  | .decl x ty v => do
    let (vTy, v) ← v.check
    let xTy := ty.getD vTy
    let v ← coerce .declaration (.declaration x) xTy vTy v
    declare x xTy
    return (.unit, .decl x ty v)
  | .assign t v => do
    let (tTy, t) ← t.check
    let (vTy, v) ← v.check
    let (cell, t) ← asReference .assignTarget vTy tTy t
    let v ← coerce .assignValue .assignment cell vTy v
    return (.ref cell, .assign t v)
  | .deref t => do
    let (tTy, t) ← t.check
    let (cell, t) ← asReference .deref .dyn tTy t
    return (cell, .deref t)
  | .alloc v _ => do
    let (vTy, v) ← v.check
    return (.ref vTy, .alloc v (some vTy))
  | .print v => do
    let (_, v) ← v.check
    return (.unit, .print v)
  | .cast ty e => do
    let (_, e) ← e.check
    return (ty, .cast ty e)

/-- Checks the items of a sequence in order, in one scope. The type is that of
the last item, or `last` if there is none. -/
def Expr.checkSeq (last : Ty) : List Expr → CheckM (Ty × List Expr)
  | [] => pure (last, [])
  | e :: es => do
    let (ty, e) ← e.check
    let (ty, es) ← Expr.checkSeq ty es
    return (ty, e :: es)

end

end Gradual

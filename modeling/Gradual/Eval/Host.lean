import Gradual.Eval.State

/-!
# Host values

Values that come from outside a program. Embedding one in a state makes its
closure or cell there, with an identity of its own.
-/

namespace Gradual

inductive HostValue where
  | const (c : Constant)
  | closure (param : String) (paramTy resultTy : Ty) (body : Expr)
  | ref (contents : HostValue) (cellTy : Ty)

/-- The value in a state; a closure is made in `scope`. -/
def HostValue.embed (scope : Chain) : HostValue → EvalM Value
  | .const c => pure (.ofConstant c)
  | .closure x xTy ret body => EvalM.makeClosure scope x xTy (some ret) body
  | .ref contents ty => do
    let v ← contents.embed scope
    EvalM.allocate ty v

end Gradual

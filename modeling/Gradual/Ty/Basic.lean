/-!
# Types

The types of the language. `dyn`, written `?`, stands for a value of which
nothing is known before it is looked at.
-/

namespace Gradual

inductive Ty where
  | dyn
  | bool
  | int
  | string
  | unit
  | fn (dom cod : Ty)
  | ref (cell : Ty)
deriving DecidableEq

namespace Ty

def isDyn : Ty → Bool
  | .dyn => true
  | _ => false

def isFn : Ty → Bool
  | .fn _ _ => true
  | _ => false

def isComposite : Ty → Bool
  | .fn _ _ => true
  | .ref _ => true
  | _ => false

end Ty

end Gradual

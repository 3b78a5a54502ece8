import Gradual.Ty.Basic

/-!
# Consistency and join

Two types are consistent when they differ only where one of them is `?`. The
join of two types keeps what they agree on and puts `?` where they differ.
Neither looks inside a reference: a cell can be written as well as read, so
two cell types agree only when they are equal.
-/

namespace Gradual.Ty

/-- `?` is consistent with every type, functions are compared part by part,
and any other two types are consistent when they are equal. -/
def consistent : Ty → Ty → Bool
  | .dyn, _ => true
  | _, .dyn => true
  | .fn a b, .fn c d => a.consistent c && b.consistent d
  | s, t => s == t

/-- Functions are joined part by part; any other two types join to themselves
when they are equal and to `?` when they are not. -/
def join : Ty → Ty → Ty
  | .fn a b, .fn c d => .fn (a.join c) (b.join d)
  | s, t => if s = t then s else .dyn

end Gradual.Ty

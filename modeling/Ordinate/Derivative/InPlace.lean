import Ordinate.Derivative.Rules
import Ordinate.Expression.Graft

/-!
# Derivatives in place

* `Expression.derivativeWith` : the derivative of a node where it stands, with a record of the gaps;
* `Expression.derivative` : the derivative alone.
-/

namespace Ordinate.Expression

/-- The derivative of a node in the context of its parent, as an expression of its own. -/
def derivativeWith (e : Expression) (p : e.Place) : StateM GapRecord Expression := do
  let t ← ((e.subtree p).applied (e.context p)).derivative
  return ofTree t

def derivative (e : Expression) (p : e.Place) : Expression :=
  (e.derivativeWith p {}).1

end Ordinate.Expression

import Ordinate.Arithmetic
import Ordinate.Expression.Basic

/-!
# Evaluation in place

* `Expression.evaluate` : the value of a node where it stands. An operator's parent decides which
  operator it applies, and is found through the node's own link;
* `Expression.value` : the value of the whole expression as a double.
-/

namespace Ordinate.Expression

universe u

/-- The value of a node in place, where the variable is `x`. -/
def evaluate {α : Type u} (A : Arithmetic α) (e : Expression) (x : α) : e.Place → α :=
  e.fold fun p values => A.nodeValue x (e.context p) (e.label p) values

theorem evaluate_eq {α : Type u} (A : Arithmetic α) (e : Expression) (x : α) (p : e.Place) :
    e.evaluate A x p =
      A.nodeValue x (e.context p) (e.label p) ((e.children p).map (e.evaluate A x)) :=
  fold_eq e _ p

def value (e : Expression) (x : Float) : Float :=
  e.evaluate .float x e.root

end Ordinate.Expression

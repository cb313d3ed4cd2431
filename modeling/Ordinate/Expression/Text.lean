import Ordinate.Expression.Graft
import Ordinate.Parse.Whole

/-!
# Expressions and text

* `Expression.ofText` : the expression written by a text;
* `Expression.render` : the lines of a node and everything below it.
-/

namespace Ordinate.Expression

/-- The expression written by a text, by a parser which has not been used before. -/
def ofText (text : String) (limits : Parse.Limits := {}) : Except Parse.Failure Expression :=
  (Parse.parse limits text {}).1.map ofTree

/-- One line for a node and each one below it, with the node itself on the given level. -/
def render (e : Expression) (p : e.Place) (level : Nat) : String :=
  (e.subtree p).render level

end Ordinate.Expression

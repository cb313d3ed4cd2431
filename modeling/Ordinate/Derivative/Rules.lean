import Ordinate.Derivative.Applied
import Ordinate.Derivative.Gap

/-!
# The rules of differentiation

The rules are for trees whose nodes apply the operators they are labelled with, as `Tree.applied`
makes them, and their results are such trees again.

* `Tree.hasFixedValue` : whether a tree does not depend on the variable;
* `Tree.productRule` and its siblings : a derivative from the operands and their derivatives;
* `Tree.derivative` : the derivative of a tree, with a note on every gap.
-/

namespace Ordinate.Tree

mutual

/-- Whether a tree has neither a variable nor a leaf without meaning. -/
def hasFixedValue : Tree → Bool
  | node .var _ => false
  | node (.unknown _) _ => false
  | node _ children => haveFixedValues children

def haveFixedValues : List Tree → Bool
  | [] => true
  | t :: ts => t.hasFixedValue && haveFixedValues ts

end

theorem haveFixedValues_eq_all (ts : List Tree) : haveFixedValues ts = ts.all hasFixedValue := by
  induction ts with
  | nil => rfl
  | cons t ts ih => rw [haveFixedValues, ih, List.all_cons]

/-! ## Rules -/

def number (text : String) : Tree :=
  leaf (.literal text)

/-- `(g * h)' = g' * h + g * h'`. -/
def productRule (g h g' h' : Tree) : Tree :=
  operation .add (operation .multiply g' h) (operation .multiply g h')

/-- `(g / h)' = (g' * h - g * h') / h ^ 2`. -/
def quotientRule (g h g' h' : Tree) : Tree :=
  operation .divide (operation .subtract (operation .multiply g' h) (operation .multiply g h'))
    (operation .power h (number "2"))

/-- `(b ^ h)' = h' * b ^ h * log b`, where `b` has a fixed value. -/
def exponentRule (b h h' : Tree) : Tree :=
  operation .multiply (operation .multiply h' (operation .power b h)) (unary .log b)

/-- `(g ^ n)' = g' * g ^ (n - 1) * n`, where `n` has a fixed value. -/
def baseRule (g n g' : Tree) : Tree :=
  operation .multiply
    (operation .multiply g' (operation .power g (operation .subtract n (number "1")))) n

/-- `(log g)' = g' / g`. -/
def logRule (g g' : Tree) : Tree :=
  operation .divide g' g

/-! ## Derivatives -/

/-- The zero which stands for a branch without a rule, with a note on the gap. -/
def zeroFor (g : Gap) : StateM GapRecord Tree := fun r =>
  (number "0", r.note g)

/-- The derivative of a tree. A power of two fixed values is zero and not looked into; of a power
with one fixed value only the other operand is differentiated. -/
def derivative : Tree → StateM GapRecord Tree
  | node .var _ => return number "1"
  | node (.literal _) _ => return number "0"
  | node (.unknown text) _ => zeroFor (.unknownLeaf text)
  | node (.binary .add) [g, h] => return operation .add (← g.derivative) (← h.derivative)
  | node (.binary .subtract) [g, h] =>
    return operation .subtract (← g.derivative) (← h.derivative)
  | node (.binary .multiply) [g, h] => return productRule g h (← g.derivative) (← h.derivative)
  | node (.binary .divide) [g, h] => return quotientRule g h (← g.derivative) (← h.derivative)
  | node (.binary .power) [g, h] =>
    match g.hasFixedValue, h.hasFixedValue with
    | true, true => return number "0"
    | true, false => return exponentRule g h (← h.derivative)
    | false, true => return baseRule g h (← g.derivative)
    | false, false => zeroFor .varyingPower
  | node .group [g] => return unary .group (← g.derivative)
  | node .log [g] => return logRule g (← g.derivative)
  | node label _ => zeroFor (.wrongArity label)

end Ordinate.Tree

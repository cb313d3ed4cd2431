import Ordinate.Label

/-!
# Arithmetics

* `Arithmetic` : what evaluation needs of the numbers it computes with;
* `Arithmetic.float` : doubles;
* `Operator.apply` : an operator on two values;
* `Arithmetic.nodeValue` : the value of a node from its label, its parent's label and the values of
  its children. Evaluation is total: whatever has no meaning counts as zero.
-/

namespace Ordinate

universe u

/-- The numbers of type `α` and the operations on them. -/
structure Arithmetic (α : Type u) where
  zero : α
  add : α → α → α
  subtract : α → α → α
  multiply : α → α → α
  divide : α → α → α
  power : α → α → α
  log : α → α
  /-- The value of the text of a literal label. -/
  literal : String → α

/-- Doubles. The text of a literal label which is not a literal counts as zero. -/
def Arithmetic.float : Arithmetic Float where
  zero := 0
  add := Float.add
  subtract := Float.sub
  multiply := Float.mul
  divide := Float.div
  power := Float.pow
  log := Float.log
  literal text := (Literal.value? text).getD 0

def Operator.apply {α : Type u} (A : Arithmetic α) : Operator → α → α → α
  | add => A.add
  | subtract => A.subtract
  | multiply => A.multiply
  | divide => A.divide
  | power => A.power

/-- The value, where the variable is `x`, of a node labelled `label` under a parent labelled
`context`, from the values of its children. -/
def Arithmetic.nodeValue {α : Type u} (A : Arithmetic α) (x : α) (context : Option Label)
    (label : Label) (values : List α) : α :=
  match label, values with
  | .literal text, _ => A.literal text
  | .var, _ => x
  | .binary op, [left, right] => (op.under context).apply A left right
  | .log, [value] => A.log value
  | .group, [value] => value
  | _, _ => A.zero

end Ordinate

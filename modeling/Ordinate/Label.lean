import Ordinate.Literal
import Ordinate.Operator
import Ordinate.Text.Quoted

/-!
# Labels

* `Label` : what a node of an expression is; `Label.name` is its text and `Label.arity` the number
  of operands it asks for;
* `Label.ofName` : the label with a given name;
* `Label.describe` : the label with its kind spelt out;
* `Operator.under` : the operator which a node applies under its parent;
* `Label.changesUnder` : whether that differs from the operator the node is labelled with.
-/

namespace Ordinate

/-- What a node of an expression is. -/
inductive Label where
  | binary (op : Operator)
  /-- The natural logarithm of the only operand. -/
  | log
  /-- A pair of parentheses. It stays in the tree and has the value of its only operand. -/
  | group
  /-- The independent variable `x`. -/
  | var
  /-- A number, kept as text. -/
  | literal (text : String)
  /-- A leaf with any other text. It has no meaning and counts as zero. -/
  | unknown (text : String)
deriving DecidableEq

namespace Label

/-- The literal in the normal spelling of `v`. -/
def ofFloat (v : Float) : Label :=
  literal (Literal.spell v)

def name : Label → String
  | binary op => op.symbol
  | log => "log"
  | group => "()"
  | var => "x"
  | literal text => text
  | unknown text => text

/-- The label with a given name. The text of a literal is kept as it is. -/
def ofName (name : String) : Label :=
  match Operator.ofSymbol? name with
  | some op => binary op
  | none =>
    if name = "log" then log
    else if name = "()" then group
    else if name = "x" then var
    else if Literal.accepts name then literal name
    else unknown name

def arity : Label → Nat
  | binary _ => 2
  | log | group => 1
  | var | literal _ | unknown _ => 0

def value? : Label → Option Float
  | literal text => Literal.value? text
  | _ => none

def operator? : Label → Option Operator
  | binary op => some op
  | _ => none

def describe : Label → String
  | binary op => "Binary(" ++ op.title ++ ")"
  | log => "Log"
  | group => "Parentheses"
  | var => "Variable"
  | literal text => "Literal(" ++ Text.quoted text ++ ")"
  | unknown text => "Unknown(" ++ Text.quoted text ++ ")"

end Label

/-! ## Operators under their parents -/

/-- The operator which a node labelled `op` applies under a parent. A chain of one precedence leans
to the right, each node with the operator written at its place, so what stands right of a `-` has
its additions and subtractions exchanged, and what stands right of a `/` divides where it is
labelled to multiply. -/
def Operator.under (op : Operator) (parent : Option Label) : Operator :=
  match op, parent with
  | .add, some (.binary .subtract) => .subtract
  | .subtract, some (.binary .subtract) => .add
  | .multiply, some (.binary .divide) => .divide
  | op, _ => op

/-- Whether a node with this label applies another operator than its own under `parent`. -/
def Label.changesUnder (label parent : Label) : Bool :=
  match label.operator? with
  | some op => op.under (some parent) ≠ op
  | none => false

theorem Operator.under_none (op : Operator) : op.under none = op := by
  cases op <;> rfl

/-- Under every label but `-` and `/` an operator keeps its meaning. -/
theorem Operator.under_eq_self {op : Operator} {parent : Label}
    (h : parent ≠ .binary .subtract ∧ parent ≠ .binary .divide) :
    op.under (some parent) = op := by
  unfold Operator.under
  split <;> simp_all

end Ordinate

import Ordinate.Proofs.Derivative.Ruled
import Ordinate.Proofs.Expression.Built

/-!
# The table of the rules

The rules differentiate a node as it is applied, with its operands in parentheses where they would
change. What comes out is worth what the table of the rules says of the node itself: its operands
and their derivatives enter with the values which they have where they stand.

* `Operator.slopeOfDoubles` : the table, on doubles;
* `Expression.Built.value_derivative_eq` : the value of a derivative obeys it, in whatever the
  operations make, even if other nodes lack operands.
-/

namespace Ordinate

/-! ## Doubles of the rules -/

/-- The derivative of an operation on doubles, whose operands are worth `l` and `r` and their
derivatives `dl` and `dr`. -/
def Operator.slopeOfDoubles (op : Operator) (fixedLeft fixedRight : Bool) (l r dl dr : Float) :
    Float :=
  match op, fixedLeft, fixedRight with
  | .add, _, _ => Float.add dl dr
  | .subtract, _, _ => Float.sub dl dr
  | .multiply, _, _ => Float.add (Float.mul dl r) (Float.mul l dr)
  | .divide, _, _ =>
    Float.div (Float.sub (Float.mul dl r) (Float.mul l dr)) (Float.pow r 2)
  | .power, true, true => 0
  | .power, true, false => Float.mul (Float.mul dr (Float.pow l r)) (Float.log l)
  | .power, false, true => Float.mul (Float.mul dl (Float.pow l (Float.sub r 1))) r
  | .power, false, false => 0

/-- The numbers which the rules write are read as the doubles of the table. -/
theorem Arithmetic.slopeRule_float (op : Operator) (fixedLeft fixedRight : Bool)
    (l r dl dr : Float) : Arithmetic.float.slopeRule op fixedLeft fixedRight l r dl dr =
      op.slopeOfDoubles fixedLeft fixedRight l r dl dr := by
  have hzero : Arithmetic.float.literal "0" = 0 := by decide +kernel
  have hone : Arithmetic.float.literal "1" = 1 := by decide +kernel
  have htwo : Arithmetic.float.literal "2" = 2 := by decide +kernel
  unfold slopeRule Operator.slopeOfDoubles
  rw [hzero, hone, htwo]
  cases op <;> cases fixedLeft <;> cases fixedRight <;> rfl

/-! ## Nodes in place -/

namespace Expression

variable {e : Expression}

/-- In whatever the operations make, the derivative of a node is worth what the table gives for the
operator which the node applies where it stands, from its operands and their derivatives, each with
the value it has where it stands. A group passes on what its operand's derivative is worth, and a
logarithm divides it by its operand. Nothing is asked of other nodes, which may lack operands. -/
theorem Built.value_derivative_eq (h : e.Built) (p : e.Place) (x : Float) :
    (∀ (op : Operator) (l r : e.Place), e.label p = .binary op →
      (e.node p).children = [l.val, r.val] →
        (e.derivative p).value x =
          (op.under (e.context p)).slopeOfDoubles (e.subtree l).hasFixedValue
            (e.subtree r).hasFixedValue (e.evaluate .float x l) (e.evaluate .float x r)
            ((e.derivative l).value x) ((e.derivative r).value x)) ∧
    (∀ c : e.Place, e.label p = .group → (e.node p).children = [c.val] →
      (e.derivative p).value x = (e.derivative c).value x) ∧
    (∀ c : e.Place, e.label p = .log → (e.node p).children = [c.val] →
      (e.derivative p).value x = Float.div ((e.derivative c).value x) (e.evaluate .float x c)) ∧
    ∀ c : e.Place, (e.subtree c).hasFixedValue ↔ ¬e.Varies c := by
  have he := h.linked
  have hvalue : ∀ q : e.Place, (e.derivative q).value x = (e.slope q).value .float x none :=
    evaluate_derivative .float x
  refine ⟨fun op l r hlabel hnode => ?_, fun c hlabel hnode => ?_, fun c hlabel hnode => ?_,
    fun c => hasFixedValue_subtree_iff⟩
  · have hchildren : e.children p = [l, r] := he.node_children_eq_iff.1 hnode
    rw [hvalue, hvalue, hvalue, he.value_slope_binary .float x hlabel hchildren,
      Arithmetic.slopeRule_float]
  · have hchildren : e.children p = [c] := he.node_children_eq_iff.1 hnode
    rw [hvalue, hvalue, he.value_slope_group .float x hlabel hchildren]
  · have hchildren : e.children p = [c] := he.node_children_eq_iff.1 hnode
    rw [hvalue, hvalue, he.value_slope_log .float x hlabel hchildren]
    rfl

/-- A difference whose right side is a sum, which it turns into a difference; the first operand of
the sum is a product without its second operand. -/
def minusGap : Expression :=
  ofTree (.binary .subtract (.leaf .var)
    (.binary .add (.node (.binary .multiply) [.leaf .var]) (.leaf .var)))

def minusGap.sum : minusGap.Place :=
  ⟨2, by decide +kernel⟩

def minusGap.left : minusGap.Place :=
  ⟨3, by decide +kernel⟩

def minusGap.right : minusGap.Place :=
  ⟨5, by decide +kernel⟩

theorem Built.value_derivative_eq_minusGap :
    minusGap.Built ∧ minusGap.label minusGap.left = .binary .multiply ∧
      (minusGap.node minusGap.left).children.length = 1 ∧
      (minusGap.derivative minusGap.sum).value 3 =
        Float.sub ((minusGap.derivative minusGap.left).value 3)
          ((minusGap.derivative minusGap.right).value 3) := by
  have hbuilt : minusGap.Built := built_ofTree _
  have hunder : Operator.add.under (minusGap.context minusGap.sum) = .subtract := by
    decide +kernel
  obtain ⟨hrules, -⟩ := Built.value_derivative_eq hbuilt minusGap.sum 3
  have hvalue := hrules .add minusGap.left minusGap.right (by decide +kernel) (by decide +kernel)
  rw [hunder] at hvalue
  exact ⟨hbuilt, by decide +kernel, by decide +kernel, hvalue⟩

end Expression

end Ordinate

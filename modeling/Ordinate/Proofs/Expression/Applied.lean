import Ordinate.Proofs.Expression.Built
import Ordinate.Proofs.Tree.Steady

/-!
# Nodes as they are applied

* `Expression.applied_in_place` : a node, labelled with the operators which are applied from it
  down, is worth alone what it is worth where it stands; nothing in it changes under its parent, if
  each node has its operands; and it is a plain copy, if nothing changed before.
-/

namespace Ordinate.Expression

universe u

variable {e : Expression}

theorem evaluate_applied {α : Type u} (A : Arithmetic α) (x : α) (p : e.Place) :
    (e.applied p).evaluate A x (e.applied p).root =
      ((e.subtree p).applied (e.context p)).value A x none :=
  evaluate_ofTree A x ((e.subtree p).applied (e.context p))

theorem steady_applied {p : e.Place} (h : (e.subtree p).Saturated) : (e.applied p).Steady :=
  steady_ofTree (Tree.steady_applied h _)

theorem Linked.applied_eq_copy (he : e.Linked) {p : e.Place}
    (h : ∀ q parent, e.Below p q → e.context q = some parent →
      (e.label q).changesUnder parent = false) : e.applied p = e.copy p := by
  have hsteady : (e.subtree p).Steady := by
    rw [steady_subtree_iff]
    exact fun q hq c hc => h c _ (hq.tail hc) (he.context_of_mem hc)
  rw [applied, copy, Tree.applied_eq_self hsteady fun parent hparent => ?_]
  rw [label_subtree]
  exact h p parent .refl hparent

/-- A node as it is applied, in whatever the operations make: it has the value which the node has
where it stands; if each node from there down has its operands, none in it applies another operator
than its own; and if none from there down did before, it is the plain copy, place by place. -/
theorem applied_in_place (h : e.Built) (p : e.Place) :
    (∀ (α : Type u) (A : Arithmetic α) (x : α),
      (e.applied p).evaluate A x (e.applied p).root = e.evaluate A x p) ∧
    ((∀ q, e.Below p q → (e.node q).children.length = (e.label q).arity) →
      (e.applied p).Steady) ∧
    ((∀ q parent, e.Below p q → e.context q = some parent →
      (e.label q).changesUnder parent = false) → e.applied p = e.copy p) := by
  have he := h.linked
  refine ⟨fun α A x => ?_, fun hlen => ?_, he.applied_eq_copy⟩
  · rw [evaluate_applied, Tree.value_applied, he.evaluate_eq_value]
  · exact steady_applied (he.saturated_subtree_iff.2 hlen)

/-- A `-` with three operands, of which the second lacks an operand of its own. -/
def threeOperands : Expression :=
  ofTree (.node (.binary .subtract) [.leaf .var, .node (.binary .add) [.leaf .var],
    .binary .add (.leaf .var) (.leaf .var)])

def threeOperands.sum : threeOperands.Place :=
  ⟨4, by decide +kernel⟩

def threeOperands.operand : threeOperands.Place :=
  ⟨6, by decide +kernel⟩

theorem applied_in_place_sum :
    threeOperands.context threeOperands.sum = some (.binary .subtract) ∧
      (∀ x : Float, (threeOperands.applied threeOperands.sum).evaluate .float x
        (threeOperands.applied threeOperands.sum).root =
          threeOperands.evaluate .float x threeOperands.sum) ∧
      (threeOperands.applied threeOperands.sum).Steady ∧
      threeOperands.applied threeOperands.operand = threeOperands.copy threeOperands.operand := by
  have hbuilt : threeOperands.Built := built_ofTree _
  have hlen : ∀ q : threeOperands.Place, threeOperands.sum ≤ q →
      (threeOperands.node q).children.length = (threeOperands.label q).arity := by
    decide +kernel
  have hvar : ∀ q : threeOperands.Place, threeOperands.operand ≤ q →
      threeOperands.label q = .var := by
    decide +kernel
  obtain ⟨hvalue, hsteady, -⟩ := applied_in_place.{0} hbuilt threeOperands.sum
  refine ⟨by decide +kernel, hvalue Float .float, hsteady fun q hq => hlen q hq.le, ?_⟩
  refine (applied_in_place.{0} hbuilt threeOperands.operand).2.2 fun q parent hq _ => ?_
  rw [hvar q hq.le]
  rfl

end Ordinate.Expression

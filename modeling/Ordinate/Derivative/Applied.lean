import Ordinate.Tree

/-!
# Trees as they are applied

In a tree as it is written, the operator a node applies depends on its parent. Rules about operators
need trees in which every node applies the operator it is labelled with.

* `Tree.keepUnder` : a tree in parentheses, if it would change its meaning under a new parent;
* `Tree.operation` : an operator above two operands which keep their meaning;
* `Tree.applied` : a tree labelled with the operators which it applies in its context.
-/

namespace Ordinate.Tree

/-- The tree `t`, in parentheses if its root would apply another operator under `parent`. -/
def keepUnder (parent : Label) (t : Tree) : Tree :=
  if t.label.changesUnder parent then unary .group t else t

/-- The operator `op` above two operands which keep their meaning under it. -/
def operation (op : Operator) (left right : Tree) : Tree :=
  binary op (left.keepUnder (.binary op)) (right.keepUnder (.binary op))

mutual

/-- The tree of a node whose parent is labelled `context`, with the meaning which it has there. An
operator without its two operands stays as it is. -/
def applied (context : Option Label) : Tree → Tree
  | node (.binary op) [left, right] =>
    operation (op.under context) (left.applied (some (.binary op)))
      (right.applied (some (.binary op)))
  | node label children => node label (appliedList label children)

def appliedList (parent : Label) : List Tree → List Tree
  | [] => []
  | t :: ts => t.applied (some parent) :: appliedList parent ts

end

theorem appliedList_eq_map (parent : Label) (ts : List Tree) :
    appliedList parent ts = ts.map (applied (some parent)) := by
  induction ts with
  | nil => rfl
  | cons t ts ih => rw [appliedList, ih, List.map_cons]

end Ordinate.Tree

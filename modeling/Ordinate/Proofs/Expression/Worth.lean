import Ordinate.Proofs.Expression.Built

/-!
# Evaluation without links

In place, a node finds its parent's label through its own link. A recursion on the tree needs none:
each node passes its label down.

* `Tree.worth` : the value of a tree as a double, by recursion on its nodes, with the label above it
  as an argument;
* `Expression.StandsUnder` : the label above a node, going by the lists of children alone;
* `Expression.Built.evaluate_eq_worth` : evaluation in place refines that recursion.
-/

namespace Ordinate

namespace Tree

/-- The value of a tree under a parent with the label `context`, where the variable is `x`. What has
no meaning is zero: an unknown leaf, a literal without a value, and an operator, a logarithm or a
group which has another number of operands than it asks for. -/
def worth (x : Float) (context : Option Label) : Tree → Float
  | node .var _ => x
  | node (.literal text) _ => (Literal.value? text).getD 0
  | node (.binary op) [left, right] =>
    (op.under context).apply .float (left.worth x (some (.binary op)))
      (right.worth x (some (.binary op)))
  | node .log [t] => Float.log (t.worth x (some .log))
  | node .group [t] => t.worth x (some .group)
  | node _ _ => 0

theorem worth_eq_value (x : Float) (t : Tree) (context : Option Label) :
    t.worth x context = t.value .float x context := by
  induction t generalizing context with
  | node label children ih =>
    rw [value_node]
    match label, children, ih with
    | .var, _, _ | .literal _, _, _ | .unknown _, _, _ => rfl
    | .binary op, [left, right], ih =>
      rw [worth, ih left (by simp), ih right (by simp)]
      rfl
    | .log, [t], ih =>
      rw [worth, ih t (by simp)]
      rfl
    | .group, [t], ih =>
      rw [worth, ih t (by simp)]
      rfl
    | .binary _, [], _ | .binary _, [_], _ | .binary _, _ :: _ :: _ :: _, _ => rfl
    | .log, [], _ | .log, _ :: _ :: _, _ | .group, [], _ | .group, _ :: _ :: _, _ => rfl

end Tree

namespace Expression

variable {e : Expression}

/-- The label above a node, going by the lists of children alone: there is none above the root, and
above any other node stands the one which has it among its children. -/
inductive StandsUnder (e : Expression) : e.Place → Option Label → Prop
  | root : StandsUnder e e.root none
  | child {p c : e.Place} (mem : c.val ∈ (e.node p).children) : StandsUnder e c (some (e.label p))

/-- Where links are sound, a node's own link leads to the label above it. -/
theorem Linked.standsUnder_iff (he : e.Linked) {p : e.Place} {context : Option Label} :
    e.StandsUnder p context ↔ context = e.context p := by
  constructor
  · intro h
    cases h with
    | root => exact he.context_root.symm
    | child mem =>
      exact (he.context_of_mem (he.mem_children.2 ((he.mem_children_iff _ _).1 mem))).symm
  · rintro rfl
    by_cases hp : p = e.root
    · subst hp
      rw [he.context_root]
      exact .root
    · obtain ⟨q, hq⟩ := he.exists_parent p hp
      rw [he.context_of_mem (he.mem_children.2 hq)]
      exact .child ((he.mem_children_iff q p).2 hq)

/-- In whatever the operations make, there is one tree below each node and one label above it. What
the node is worth in place, where each operator finds its parent through its own link, is what a
recursion on that tree gives which starts with that label and passes each node's label down. -/
theorem Built.evaluate_eq_worth (h : e.Built) (p : e.Place) (x : Float) :
    (∃! t, e.Yields (fun q => Tree.node (e.label q)) p.val t) ∧
    (∃! context, e.StandsUnder p context) ∧
    ∀ t context, e.Yields (fun q => Tree.node (e.label q)) p.val t → e.StandsUnder p context →
      e.evaluate .float x p = t.worth x context ∧
        e.Yields (e.visit (valueRule .float x)) p.val (t.worth x context) := by
  have he := h.linked
  have htree : ∀ t, e.Yields (fun q => Tree.node (e.label q)) p.val t ↔ t = e.subtree p :=
    fun t => he.yields_iff
  have hcontext : ∀ context, e.StandsUnder p context ↔ context = e.context p := fun _ =>
    he.standsUnder_iff
  refine ⟨⟨e.subtree p, (htree _).2 rfl, fun t ht => (htree t).1 ht⟩,
    ⟨e.context p, (hcontext _).2 rfl, fun c hc => (hcontext c).1 hc⟩, fun t context ht hc => ?_⟩
  have hvalue : e.evaluate .float x p = t.worth x context := by
    rw [(htree t).1 ht, (hcontext context).1 hc, Tree.worth_eq_value, he.evaluate_eq_value]
  exact ⟨hvalue, hvalue ▸ he.yields_evaluate .float x p⟩

/-- A difference whose right side gets its operands late, the second of them without meaning. -/
def lateSum : Expression :=
  ((binary .subtract (single .var) (single (.binary .add))).graftAt 2 (single .var)).graftAt 2
    (single (.unknown "q"))

def lateSum.right : lateSum.Place :=
  ⟨2, by decide +kernel⟩

theorem Built.evaluate_eq_worth_lateSum :
    lateSum.Built ∧ lateSum.StandsUnder lateSum.right (some (.binary .subtract)) ∧
      lateSum.evaluate .float 3 lateSum.right = Float.sub 3 0 := by
  have hbuilt : lateSum.Built :=
    .graftAt (.graftAt (.binary _ (.single _) (.single _)) 2 (.single _)) 2 (.single _)
  have hlabel : lateSum.label lateSum.root = .binary .subtract := by decide +kernel
  have hmem : lateSum.right.val ∈ (lateSum.node lateSum.root).children := by decide +kernel
  have hunder : lateSum.StandsUnder lateSum.right (some (.binary .subtract)) := hlabel ▸ .child hmem
  have hsubtree : lateSum.subtree lateSum.right =
      .binary .add (.leaf .var) (.leaf (.unknown "q")) := by decide +kernel
  have htree : lateSum.Yields (fun q => Tree.node (lateSum.label q)) lateSum.right.val
      (.binary .add (.leaf .var) (.leaf (.unknown "q"))) :=
    hbuilt.linked.yields_iff.2 hsubtree.symm
  obtain ⟨-, -, hworth⟩ := Built.evaluate_eq_worth hbuilt lateSum.right 3
  exact ⟨hbuilt, hunder, (hworth _ _ htree hunder).1⟩

end Expression

end Ordinate

import Ordinate.Proofs.Expression.Walk

/-!
# Shapes of trees

* `Tree.induction` : a property which each node has from its children holds of every tree;
* `Tree.Everywhere` : every node of a tree has a property of its label and the trees below it;
  `Expression.everywhere_subtree_iff` says the same of the nodes below a node of an expression;
* `Tree.Saturated` : every node has as many children as its label asks for;
* `Tree.Saturated.shapes` : such a tree is a leaf, a logarithm, a group or an operation;
* `Expression.Saturated`, `Expression.Linked.saturated_subtree` : the same of expressions;
* `Expression.Operands`, `Expression.Linked.operands` : what stands at a node which has as many
  children as its label asks for.
-/

namespace Ordinate

namespace Tree

/-- A property which each node has if its children have it holds of every tree. -/
@[elab_as_elim, induction_eliminator]
theorem induction {P : Tree → Prop}
    (node : ∀ label children, (∀ t ∈ children, P t) → P (.node label children)) (t : Tree) :
    P t := by
  cases t with
  | node label children => exact node label children fun t _ => induction node t

/-- Every node has the property `Q` of its label and the trees below it. -/
inductive Everywhere (Q : Label → List Tree → Prop) : Tree → Prop
  | node {label : Label} {children : List Tree} (here : Q label children)
      (below : ∀ t ∈ children, Everywhere Q t) : Everywhere Q (.node label children)

theorem everywhere_node {Q : Label → List Tree → Prop} {label : Label} {children : List Tree} :
    (node label children).Everywhere Q ↔ Q label children ∧ ∀ t ∈ children, t.Everywhere Q :=
  ⟨fun ⟨here, below⟩ => ⟨here, below⟩, fun ⟨here, below⟩ => .node here below⟩

section Everywhere

variable {Q : Label → List Tree → Prop}

theorem Everywhere.mono {R : Label → List Tree → Prop} {t : Tree} (h : t.Everywhere Q)
    (hQR : ∀ label children, Q label children → R label children) : t.Everywhere R := by
  induction h with
  | node here _ ih => exact .node (hQR _ _ here) ih

theorem everywhere_leaf {label : Label} : (leaf label).Everywhere Q ↔ Q label [] := by
  rw [leaf, everywhere_node]
  exact and_iff_left (by simp)

theorem everywhere_unary {label : Label} {t : Tree} :
    (unary label t).Everywhere Q ↔ Q label [t] ∧ t.Everywhere Q := by
  rw [unary, everywhere_node, List.forall_mem_singleton]

theorem everywhere_binary {op : Operator} {t u : Tree} :
    (binary op t u).Everywhere Q ↔
      Q (.binary op) [t, u] ∧ t.Everywhere Q ∧ u.Everywhere Q := by
  rw [binary, everywhere_node, List.forall_mem_cons, List.forall_mem_singleton]

end Everywhere

/-- Every node has as many children as its label asks for. -/
inductive Saturated : Tree → Prop
  | node {label : Label} {children : List Tree} (length_eq : children.length = label.arity)
      (saturated : ∀ t ∈ children, Saturated t) : Saturated (.node label children)

theorem saturated_iff_everywhere {t : Tree} :
    t.Saturated ↔ t.Everywhere fun label children => children.length = label.arity := by
  constructor
  · intro h
    induction h with
    | node hlen _ ih => exact .node hlen ih
  · intro h
    induction h with
    | node hlen _ ih => exact .node hlen ih

@[simp] theorem saturated_leaf {label : Label} : (leaf label).Saturated ↔ label.arity = 0 := by
  constructor
  · rintro ⟨h, -⟩
    exact h.symm
  · intro h
    exact .node h.symm nofun

@[simp] theorem saturated_unary {label : Label} {t : Tree} :
    (unary label t).Saturated ↔ label.arity = 1 ∧ t.Saturated := by
  constructor
  · rintro ⟨h, ht⟩
    exact ⟨h.symm, ht t (List.mem_singleton_self t)⟩
  · rintro ⟨h, ht⟩
    refine .node h.symm fun u hu => ?_
    rwa [List.mem_singleton.1 hu]

@[simp] theorem saturated_binary {op : Operator} {t u : Tree} :
    (binary op t u).Saturated ↔ t.Saturated ∧ u.Saturated := by
  constructor
  · rintro ⟨-, h⟩
    exact ⟨h t (by simp), h u (by simp)⟩
  · rintro ⟨ht, hu⟩
    refine .node rfl fun v hv => ?_
    rcases List.mem_pair.1 hv with rfl | rfl
    · exact ht
    · exact hu

/-- What holds of leaves, logarithms, groups and operations holds of saturated trees. -/
@[elab_as_elim]
theorem Saturated.shapes {P : Tree → Prop}
    (leaf : ∀ label : Label, label.arity = 0 → P (leaf label))
    (log : ∀ t : Tree, t.Saturated → P t → P (unary .log t))
    (group : ∀ t : Tree, t.Saturated → P t → P (unary .group t))
    (binary : ∀ op (t u : Tree), t.Saturated → u.Saturated → P t → P u → P (binary op t u))
    {t : Tree} (h : t.Saturated) : P t := by
  induction h with
  | @node label children hlen hs ih =>
    match label, children, hlen with
    | .binary op, [t, u], _ =>
      exact binary op t u (hs t (by simp)) (hs u (by simp)) (ih t (by simp)) (ih u (by simp))
    | .log, [t], _ => exact log t (hs t (by simp)) (ih t (by simp))
    | .group, [t], _ => exact group t (hs t (by simp)) (ih t (by simp))
    | .var, [], _ => exact leaf .var rfl
    | .literal text, [], _ => exact leaf (.literal text) rfl
    | .unknown text, [], _ => exact leaf (.unknown text) rfl

end Tree

namespace Expression

def Saturated (e : Expression) : Prop :=
  ∀ p : e.Place, (e.node p).children.length = (e.label p).arity

variable {e : Expression}

@[simp] theorem label_subtree (p : e.Place) : (e.subtree p).label = e.label p := by
  rw [subtree_eq, Tree.label]

theorem Linked.length_children_eq (he : e.Linked) (p : e.Place) :
    (e.children p).length = (e.node p).children.length := by
  rw [← he.map_val_children, List.length_map]

theorem Linked.length_children (he : e.Linked) (hs : e.Saturated) (p : e.Place) :
    (e.children p).length = (e.label p).arity := by
  rw [he.length_children_eq, hs p]

/-- A node with the operands which its label asks for. -/
inductive Operands (e : Expression) (p : e.Place) : Prop
  | binary {op : Operator} {l r : e.Place} (label_eq : e.label p = .binary op)
      (children_eq : e.children p = [l, r]) : Operands e p
  | log {g : e.Place} (label_eq : e.label p = .log) (children_eq : e.children p = [g]) :
      Operands e p
  | group {g : e.Place} (label_eq : e.label p = .group) (children_eq : e.children p = [g]) :
      Operands e p
  | var (label_eq : e.label p = .var) (children_eq : e.children p = []) : Operands e p
  | literal {text : String} (label_eq : e.label p = .literal text)
      (children_eq : e.children p = []) : Operands e p
  | unknown {text : String} (label_eq : e.label p = .unknown text)
      (children_eq : e.children p = []) : Operands e p

theorem Linked.operands (he : e.Linked) {p : e.Place}
    (h : (e.node p).children.length = (e.label p).arity) : e.Operands p := by
  rw [← he.length_children_eq] at h
  match hlabel : e.label p, h with
  | .binary op, h =>
    obtain ⟨l, r, hchildren⟩ := List.length_eq_two.1 h
    exact .binary hlabel hchildren
  | .log, h =>
    obtain ⟨g, hchildren⟩ := List.length_eq_one_iff.1 h
    exact .log hlabel hchildren
  | .group, h =>
    obtain ⟨g, hchildren⟩ := List.length_eq_one_iff.1 h
    exact .group hlabel hchildren
  | .var, h => exact .var hlabel (List.eq_nil_of_length_eq_zero h)
  | .literal text, h => exact .literal hlabel (List.eq_nil_of_length_eq_zero h)
  | .unknown text, h => exact .unknown hlabel (List.eq_nil_of_length_eq_zero h)

theorem everywhere_subtree_iff {Q : Label → List Tree → Prop} {p : e.Place} :
    (e.subtree p).Everywhere Q ↔
      ∀ q, e.Below p q → Q (e.label q) ((e.children q).map e.subtree) := by
  induction p using induction_on_children with
  | step p ih =>
    rw [subtree_eq, Tree.everywhere_node, List.forall_mem_map]
    constructor
    · rintro ⟨here, below⟩ q hq
      obtain rfl | ⟨c, hc, hcq⟩ := below_iff.1 hq
      · exact here
      · exact (ih c hc).1 (below c hc) q hcq
    · intro h
      exact ⟨h p .refl, fun c hc => (ih c hc).2 fun q hq => h q (.head hc hq)⟩

theorem Linked.everywhere_subtree (he : e.Linked) {Q : Label → List Tree → Prop}
    (h : e.toTree.Everywhere Q) (p : e.Place) : (e.subtree p).Everywhere Q :=
  everywhere_subtree_iff.2 fun q hq =>
    everywhere_subtree_iff.1 h q ((he.below_root p).trans hq)

theorem Linked.saturated_subtree_iff (he : e.Linked) {p : e.Place} :
    (e.subtree p).Saturated ↔
      ∀ q, e.Below p q → (e.node q).children.length = (e.label q).arity := by
  rw [Tree.saturated_iff_everywhere, everywhere_subtree_iff]
  refine forall₂_congr fun q _ => ?_
  rw [List.length_map, he.length_children_eq]

theorem Linked.saturated_subtree (he : e.Linked) (hs : e.Saturated) (p : e.Place) :
    (e.subtree p).Saturated :=
  he.saturated_subtree_iff.2 fun q _ => hs q

theorem Linked.saturated_iff (he : e.Linked) : e.Saturated ↔ e.toTree.Saturated :=
  ⟨fun hs => he.saturated_subtree hs e.root,
    fun ht p => he.saturated_subtree_iff.1 ht p (he.below_root p)⟩

theorem saturated_ofTree {t : Tree} (ht : t.Saturated) : (ofTree t).Saturated := by
  rwa [(linked_ofTree t).saturated_iff, toTree_ofTree]

end Expression

end Ordinate

import Ordinate.Proofs.Tree.Value

/-!
# Trees whose nodes apply their own operators

* `Tree.Steady` : no node applies another operator than its own under its parent;
* `Tree.steady_applied` : a tree as it is applied is steady, if each node has its operands;
* `Tree.applied_eq_self` : a steady tree is applied as it is;
* `Expression.Steady`, `Expression.Linked.steady_iff` : the same of expressions, of which each node
  is then worth alone what it is worth in place.
-/

namespace Ordinate

universe u

namespace Tree

/-- No node applies another operator than its own under its parent. -/
def Steady (t : Tree) : Prop :=
  t.Everywhere fun label children => ∀ u ∈ children, u.label.changesUnder label = false

theorem steady_node {label : Label} {children : List Tree} :
    (node label children).Steady ↔
      (∀ u ∈ children, u.label.changesUnder label = false) ∧ ∀ u ∈ children, u.Steady :=
  everywhere_node

@[simp] theorem steady_leaf (label : Label) : (leaf label).Steady :=
  steady_node.2 ⟨nofun, nofun⟩

@[simp] theorem steady_log {t : Tree} : (unary .log t).Steady ↔ t.Steady := by
  rw [unary, steady_node, List.forall_mem_singleton, List.forall_mem_singleton]
  exact and_iff_right (changesUnder_eq_false (by decide))

@[simp] theorem steady_group {t : Tree} : (unary .group t).Steady ↔ t.Steady := by
  rw [unary, steady_node, List.forall_mem_singleton, List.forall_mem_singleton]
  exact and_iff_right (changesUnder_eq_false (by decide))

theorem steady_binary {op : Operator} {t u : Tree} :
    (binary op t u).Steady ↔
      (t.label.changesUnder (.binary op) = false ∧ u.label.changesUnder (.binary op) = false) ∧
        t.Steady ∧ u.Steady := by
  rw [binary, steady_node]
  simp

/-! ## Operands in parentheses -/

theorem changesUnder_label_keepUnder (parent : Label) (t : Tree) :
    (t.keepUnder parent).label.changesUnder parent = false := by
  unfold keepUnder
  split
  · rfl
  · next h => exact Bool.eq_false_iff.2 h

@[simp] theorem steady_keepUnder {parent : Label} {t : Tree} :
    (t.keepUnder parent).Steady ↔ t.Steady := by
  unfold keepUnder
  split
  · exact steady_group
  · rfl

@[simp] theorem steady_operation {op : Operator} {t u : Tree} :
    (operation op t u).Steady ↔ t.Steady ∧ u.Steady := by
  rw [operation, steady_binary, steady_keepUnder, steady_keepUnder]
  exact and_iff_right ⟨changesUnder_label_keepUnder _ t, changesUnder_label_keepUnder _ u⟩

@[simp] theorem saturated_keepUnder {parent : Label} {t : Tree} :
    (t.keepUnder parent).Saturated ↔ t.Saturated := by
  unfold keepUnder
  split
  · exact saturated_unary.trans (and_iff_right rfl)
  · rfl

@[simp] theorem saturated_operation {op : Operator} {t u : Tree} :
    (operation op t u).Saturated ↔ t.Saturated ∧ u.Saturated := by
  rw [operation, saturated_binary, saturated_keepUnder, saturated_keepUnder]

/-! ## Trees as they are applied -/

theorem applied_leaf (label : Label) (context : Option Label) :
    (leaf label).applied context = leaf label :=
  applied_node (fun _ _ => by decide) context

theorem saturated_applied {t : Tree} (ht : t.Saturated) :
    ∀ context, (t.applied context).Saturated := by
  refine ht.shapes ?leaf ?log ?group ?binary
  case leaf =>
    intro label harity context
    rw [applied_leaf]
    exact saturated_leaf.2 harity
  case log | group =>
    intro t _ ih context
    exact saturated_unary.2 ⟨rfl, ih _⟩
  case binary =>
    intro op t u _ _ iht ihu context
    rw [applied_binary, saturated_operation]
    exact ⟨iht _, ihu _⟩

/-- A tree as it is applied is steady: an operation has its operands in parentheses where they would
change, and under logarithms and groups nothing does. -/
theorem steady_applied {t : Tree} (ht : t.Saturated) : ∀ context, (t.applied context).Steady := by
  refine ht.shapes ?leaf ?log ?group ?binary
  case leaf =>
    intro label _ context
    rw [applied_leaf]
    exact steady_leaf label
  case log =>
    intro t _ ih context
    exact steady_log.2 (ih _)
  case group =>
    intro t _ ih context
    exact steady_group.2 (ih _)
  case binary =>
    intro op t u _ _ iht ihu context
    rw [applied_binary, steady_operation]
    exact ⟨iht _, ihu _⟩

theorem keepUnder_eq_self {parent : Label} {t : Tree} (h : t.label.changesUnder parent = false) :
    t.keepUnder parent = t := by
  rw [keepUnder, h]
  rfl

theorem operation_eq_binary {op : Operator} {t u : Tree}
    (ht : t.label.changesUnder (.binary op) = false)
    (hu : u.label.changesUnder (.binary op) = false) : operation op t u = binary op t u := by
  rw [operation, keepUnder_eq_self ht, keepUnder_eq_self hu]

theorem under_eq_self_of_not_changesUnder {op : Operator} {context : Option Label}
    (h : ∀ parent, context = some parent → (Label.binary op).changesUnder parent = false) :
    op.under context = op := by
  cases context with
  | none => exact Operator.under_none op
  | some parent => simpa [Label.changesUnder, Label.operator?] using h parent rfl

/-- A steady tree which its parent does not change either is applied as it is. -/
theorem applied_eq_self {t : Tree} (ht : t.Steady) {context : Option Label}
    (h : ∀ parent, context = some parent → t.label.changesUnder parent = false) :
    t.applied context = t := by
  induction t generalizing context with
  | node label children ih =>
    have hchildren : ∀ u ∈ children, u.applied (some label) = u := by
      intro u hu
      obtain ⟨hhere, hbelow⟩ := steady_node.1 ht
      refine ih u hu (hbelow u hu) fun parent hparent => ?_
      cases hparent
      exact hhere u hu
    obtain ⟨op, u, v, heq⟩ | ⟨_, _, heq, hop⟩ := operation_or (node label children)
    · cases heq
      obtain ⟨⟨hu, hv⟩, -⟩ := steady_binary.1 ht
      rw [show node (.binary op) [u, v] = binary op u v from rfl, applied_binary,
        under_eq_self_of_not_changesUnder h, hchildren u (by simp), hchildren v (by simp),
        operation_eq_binary hu hv]
    · cases heq
      rw [applied_node hop, List.map_congr_left hchildren, List.map_id']

end Tree

/-! ## Expressions -/

namespace Expression

def Steady (e : Expression) : Prop :=
  ∀ (p : e.Place) (parent : Label), e.context p = some parent →
    (e.label p).changesUnder parent = false

variable {e : Expression}

theorem steady_subtree_iff {p : e.Place} :
    (e.subtree p).Steady ↔ ∀ q, e.Below p q →
      ∀ c ∈ e.children q, (e.label c).changesUnder (e.label q) = false := by
  rw [Tree.Steady, everywhere_subtree_iff]
  simp only [List.forall_mem_map, label_subtree]

theorem Linked.exists_mem_children_of_context (he : e.Linked) {c : e.Place} {parent : Label}
    (h : e.context c = some parent) : ∃ p, c ∈ e.children p ∧ e.label p = parent := by
  obtain ⟨p, hp, hlabel⟩ := Option.map_eq_some_iff.1 h
  obtain ⟨i, hi, hplace⟩ := Option.bind_eq_some_iff.1 hp
  rw [place?_eq_some_iff] at hplace
  exact ⟨p, he.mem_children.2 (hplace ▸ hi), hlabel⟩

theorem Linked.steady_iff (he : e.Linked) : e.Steady ↔ e.toTree.Steady := by
  rw [toTree, steady_subtree_iff]
  constructor
  · exact fun h q _ c hc => h c _ (he.context_of_mem hc)
  · intro h c parent hcontext
    obtain ⟨p, hc, rfl⟩ := he.exists_mem_children_of_context hcontext
    exact h p (he.below_root p) c hc

theorem steady_ofTree {t : Tree} (ht : t.Steady) : (ofTree t).Steady := by
  rwa [(linked_ofTree t).steady_iff, toTree_ofTree]

theorem evaluate_copy {α : Type u} (A : Arithmetic α) (x : α) (p : e.Place) :
    (e.copy p).evaluate A x (e.copy p).root = (e.subtree p).value A x none :=
  evaluate_ofTree A x (e.subtree p)

/-- Where no node changes its operator, each is worth alone what it is worth in place. -/
theorem Linked.evaluate_copy_of_steady (he : e.Linked) (hs : e.Steady) {α : Type u}
    (A : Arithmetic α) (x : α) (p : e.Place) :
    (e.copy p).evaluate A x (e.copy p).root = e.evaluate A x p := by
  rw [evaluate_copy, he.evaluate_eq_value]
  cases hcontext : e.context p with
  | none => rfl
  | some parent =>
    have hlabel : (e.subtree p).label.changesUnder parent = false := by
      rw [label_subtree]
      exact hs p parent hcontext
    exact (Tree.value_eq_of_not_changesUnder A x hlabel).symm

end Expression

end Ordinate

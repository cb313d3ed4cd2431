import Ordinate.Tree

/-!
# Expressions

An expression holds its nodes in a row, and the nodes refer to one another by their places in it.

* `Expression.Node` : a label, the places of the children, and the place of the parent;
* `Expression` : a row of nodes, of which the first is the root;
* `Expression.Place` : a place which has a node;
* `Expression.children`, `Expression.parent?` : the nodes which a node's links lead to;
* `Expression.fold` : the result of a node from those of its children;
* `Expression.subtree` : the labelled tree below a node.
-/

namespace Ordinate

universe u

/-- A node and its links to other nodes of the same row. -/
structure Expression.Node where
  label : Label
  children : List Nat
  parent : Option Nat
deriving DecidableEq

/-- A row of nodes with at least the root, which stands at its start. -/
structure Expression where
  nodes : Array Expression.Node
  nodes_nonempty : 0 < nodes.size
deriving DecidableEq

namespace Expression

def size (e : Expression) : Nat :=
  e.nodes.size

theorem size_pos (e : Expression) : 0 < e.size :=
  e.nodes_nonempty

abbrev Place (e : Expression) : Type :=
  Fin e.size

def root (e : Expression) : e.Place :=
  ⟨0, e.nodes_nonempty⟩

def place? (e : Expression) (i : Nat) : Option e.Place :=
  if h : i < e.size then some ⟨i, h⟩ else none

def node (e : Expression) (p : e.Place) : Node :=
  have : p.val < e.nodes.size := p.isLt
  e.nodes[p.val]

def label (e : Expression) (p : e.Place) : Label :=
  (e.node p).label

def describe (e : Expression) (p : e.Place) : String :=
  "NodeRef \x7b id: NodeId(" ++ p.val.repr ++ "), label: " ++ (e.label p).describe ++ " \x7d"

theorem place?_eq_some_iff {e : Expression} {i : Nat} {p : e.Place} :
    e.place? i = some p ↔ p.val = i := by
  rw [place?]
  split
  · rw [Option.some.injEq, Fin.ext_iff, eq_comm]
  · exact ⟨nofun, fun h => absurd (h ▸ p.isLt) ‹_›⟩

/-! ## Links -/

def parent? (e : Expression) (p : e.Place) : Option e.Place :=
  (e.node p).parent.bind e.place?

def context (e : Expression) (p : e.Place) : Option Label :=
  (e.parent? p).map e.label

/-- The child with the number `i` of the node at `p`: children stand after their parents. -/
def childAt? (e : Expression) (p : e.Place) (i : Nat) : Option e.Place :=
  if p.val < i then e.place? i else none

def children (e : Expression) (p : e.Place) : List e.Place :=
  (e.node p).children.filterMap (e.childAt? p)

theorem childAt?_eq_some_iff {e : Expression} {p c : e.Place} {i : Nat} :
    e.childAt? p i = some c ↔ p.val < i ∧ c.val = i := by
  rw [childAt?]
  split
  · rw [place?_eq_some_iff]
    exact ⟨fun h => ⟨‹_›, h⟩, And.right⟩
  · exact ⟨nofun, fun h => absurd h.1 ‹_›⟩

theorem lt_of_mem_children {e : Expression} {p c : e.Place} (h : c ∈ e.children p) :
    p.val < c.val := by
  obtain ⟨i, -, hi⟩ := List.mem_filterMap.1 h
  obtain ⟨hlt, rfl⟩ := childAt?_eq_some_iff.1 hi
  exact hlt

/-! ## Recursion over the children -/

/-- The result of a node, where `f` makes it from the node and the results of its children. -/
def fold {β : Type u} (e : Expression) (f : e.Place → List β → β) (p : e.Place) : β :=
  f p ((e.children p).attach.map fun c => e.fold f c.val)
termination_by e.size - p.val
decreasing_by
  have := lt_of_mem_children c.property
  have := c.val.isLt
  omega

theorem fold_eq {β : Type u} (e : Expression) (f : e.Place → List β → β) (p : e.Place) :
    e.fold f p = f p ((e.children p).map (e.fold f)) := by
  rw [fold, List.map_attach_eq_pmap, List.pmap_eq_map]

def subtree (e : Expression) : e.Place → Tree :=
  e.fold fun p => Tree.node (e.label p)

theorem subtree_eq (e : Expression) (p : e.Place) :
    e.subtree p = Tree.node (e.label p) ((e.children p).map e.subtree) :=
  fold_eq e _ p

def toTree (e : Expression) : Tree :=
  e.subtree e.root

end Expression

end Ordinate

import Ordinate.Expression.Basic

/-!
# Building expressions

Expressions are built from the leaves up: a finished expression is moved under a node of another.

* `Expression.single` : one node;
* `Expression.graft` : an expression under a node of another, behind that node's other children;
* `Expression.unary`, `Expression.binary` : an expression above one and two others;
* `Expression.ofTree` : a labelled tree as an expression;
* `Expression.copy` : a node with everything below it as an expression of its own.
-/

namespace Ordinate.Expression

def single (label : Label) : Expression where
  nodes := #[⟨label, [], none⟩]
  nodes_nonempty := Nat.one_pos

/-- The node with all links moved by `offset` places. -/
def Node.moved (offset : Nat) (n : Node) : Node :=
  ⟨n.label, n.children.map (· + offset), n.parent.map (· + offset)⟩

def Node.withChild (i : Nat) (n : Node) : Node :=
  { n with children := n.children ++ [i] }

def Node.withParent (i : Nat) (n : Node) : Node :=
  { n with parent := some i }

/-- The expression `e` with all of `child` behind its nodes, and the root of `child` as the last
child of the node at `p`. That root comes to stand at the place with the number `e.size`. -/
def graft (e : Expression) (p : e.Place) (child : Expression) : Expression where
  nodes :=
    (e.nodes.modify p.val (Node.withChild e.size) ++ child.nodes.map (Node.moved e.size)).modify
      e.size (Node.withParent p.val)
  nodes_nonempty := by
    have := e.nodes_nonempty
    simp only [Array.size_modify, Array.size_append]
    omega

@[simp] theorem size_single (label : Label) : (single label).size = 1 := rfl

@[simp] theorem size_graft (e : Expression) (p : e.Place) (child : Expression) :
    (e.graft p child).size = e.size + child.size := by
  simp [graft, size]

/-- The expression `e` with `child` as the last child of its root. -/
def graftAtRoot (e child : Expression) : Expression :=
  e.graft e.root child

/-- The expression `e` with `child` under the node at the place with the number `i`, and the number
of the place of that child's root in it; nothing if `e` has no such place. -/
def graft? (e : Expression) (i : Nat) (child : Expression) : Option (Expression × Nat) :=
  (e.place? i).map fun p => (e.graft p child, e.size)

def unary (label : Label) (child : Expression) : Expression :=
  (single label).graftAtRoot child

def binary (op : Operator) (left right : Expression) : Expression :=
  ((single (.binary op)).graftAtRoot left).graftAtRoot right

mutual

/-- The labelled tree as an expression: its children are grafted one after the other. -/
def ofTree : Tree → Expression
  | .node label children => graftTrees (single label) children

/-- The expression `e` with the given trees under its root, behind its other children. -/
def graftTrees (e : Expression) : List Tree → Expression
  | [] => e
  | t :: ts => graftTrees (e.graftAtRoot (ofTree t)) ts

end

/-- A node and everything below it as an expression of its own. -/
def copy (e : Expression) (p : e.Place) : Expression :=
  ofTree (e.subtree p)

theorem ofTree_leaf (label : Label) : ofTree (.leaf label) = single label := rfl

theorem ofTree_unary (label : Label) (t : Tree) :
    ofTree (.unary label t) = unary label (ofTree t) := rfl

theorem ofTree_binary (op : Operator) (t u : Tree) :
    ofTree (.binary op t u) = binary op (ofTree t) (ofTree u) := rfl

end Ordinate.Expression

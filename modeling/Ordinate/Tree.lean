import Ordinate.Label

/-!
# Labelled trees

* `Tree` : a label and a list of child trees, whatever the label's arity;
* `Tree.leaf`, `Tree.unary`, `Tree.binary` : trees with no, one and two children;
* `Tree.size`, `Tree.preorder` : the number of nodes, and their labels from the root on;
* `Tree.render` : one line for each node, with one tab for each level.
-/

namespace Ordinate

inductive Tree where
  | node (label : Label) (children : List Tree)

namespace Tree

def label : Tree → Label
  | node label _ => label

def children : Tree → List Tree
  | node _ children => children

def leaf (label : Label) : Tree :=
  node label []

def unary (label : Label) (child : Tree) : Tree :=
  node label [child]

def binary (op : Operator) (left right : Tree) : Tree :=
  node (.binary op) [left, right]

/-! ## Equality -/

mutual

def decEq : (t u : Tree) → Decidable (t = u)
  | node l ts, node m us =>
    match (inferInstance : Decidable (l = m)), decEqList ts us with
    | isTrue h, isTrue h' => isTrue (by rw [h, h'])
    | isFalse h, _ => isFalse fun e => h (Tree.node.inj e).1
    | _, isFalse h => isFalse fun e => h (Tree.node.inj e).2

def decEqList : (ts us : List Tree) → Decidable (ts = us)
  | [], [] => isTrue rfl
  | [], _ :: _ => isFalse nofun
  | _ :: _, [] => isFalse nofun
  | t :: ts, u :: us =>
    match t.decEq u, decEqList ts us with
    | isTrue h, isTrue h' => isTrue (by rw [h, h'])
    | isFalse h, _ => isFalse fun e => h (List.cons.inj e).1
    | _, isFalse h => isFalse fun e => h (List.cons.inj e).2

end

instance : DecidableEq Tree := decEq

/-! ## Size -/

mutual

def size : Tree → Nat
  | node _ children => 1 + sizeList children

def sizeList : List Tree → Nat
  | [] => 0
  | t :: ts => t.size + sizeList ts

end

theorem sizeList_eq_foldr (ts : List Tree) : sizeList ts = (ts.map size).foldr (· + ·) 0 := by
  induction ts with
  | nil => rfl
  | cons t ts ih => rw [sizeList, ih, List.map_cons, List.foldr_cons]

/-! ## Order of the nodes -/

mutual

/-- The nodes from the root on, each before its children, with the level each stands on when the
root stands on `level`. -/
def outline (level : Nat) : Tree → List (Nat × Label)
  | node label children => (level, label) :: outlineList (level + 1) children

def outlineList (level : Nat) : List Tree → List (Nat × Label)
  | [] => []
  | t :: ts => t.outline level ++ outlineList level ts

end

theorem outlineList_eq_flatMap (level : Nat) (ts : List Tree) :
    outlineList level ts = ts.flatMap (outline level) := by
  induction ts with
  | nil => rfl
  | cons t ts ih => rw [outlineList, ih, List.flatMap_cons]

def preorder (t : Tree) : List Label :=
  (t.outline 0).map Prod.snd

/-! ## Text -/

/-- The line of one node: a tab for each level, the label's name, and a line end. -/
def renderLine (level : Nat) (label : Label) : List Char :=
  List.replicate level '\t' ++ label.name.toList ++ ['\n']

/-- One line for each node, with the root on the given level. -/
def render (t : Tree) (level : Nat) : String :=
  String.ofList ((t.outline level).flatMap fun (l, label) => renderLine l label)

end Tree

end Ordinate

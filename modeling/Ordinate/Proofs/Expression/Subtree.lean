import Mathlib.Logic.Relation
import Ordinate.Proofs.Expression.Linked

/-!
# Trees of grafts

* `Expression.Below` : a node stands below another one, or is the same;
* `Expression.subtree_shifted`, `Expression.subtree_kept` : the trees below the nodes of a graft,
  where they are the trees of the two expressions;
* `Expression.toTree_graftAtRoot` : a graft at the root adds one child to the tree;
* `Expression.toTree_ofTree` : a labelled tree laid out as an expression is read back from it.
-/

namespace Ordinate.Expression

variable {e : Expression}

/-! ## Nodes below a node -/

/-- `q` is the node `p` or stands below it. -/
def Below (e : Expression) (p q : e.Place) : Prop :=
  Relation.ReflTransGen (fun a b => b ∈ e.children a) p q

theorem Below.le {p q : e.Place} (h : e.Below p q) : p ≤ q := by
  induction h with
  | refl => exact Nat.le_refl _
  | tail _ hc ih => exact Nat.le_trans ih (Nat.le_of_lt (lt_of_mem_children hc))

theorem below_iff {p q : e.Place} : e.Below p q ↔ q = p ∨ ∃ c ∈ e.children p, e.Below c q := by
  rw [Below, Relation.ReflTransGen.cases_head_iff, eq_comm]
  rfl

/-! ## Trees below the nodes of a graft -/

section Graft

variable {p : e.Place} {child : Expression}

theorem eq_of_map_val {l m : List e.Place} (h : l.map Fin.val = m.map Fin.val) : l = m :=
  List.map_injective_iff.2 (fun _ _ => Fin.ext) h

/-- Where links are sound, the stored numbers and the places say the same. -/
theorem Linked.node_children_eq_iff (he : e.Linked) {q : e.Place} {l : List e.Place} :
    (e.node q).children = l.map Fin.val ↔ e.children q = l := by
  rw [← he.map_val_children]
  exact ⟨eq_of_map_val, congrArg _⟩

theorem children_kept (he : e.Linked) (hc : child.Linked) (q : e.Place) :
    (e.graft p child).children (kept q) =
      (e.children q).map kept ++ if q = p then [shifted child.root] else [] := by
  apply eq_of_map_val
  rw [(he.graft hc p).map_val_children, node_children_kept, List.map_append, List.map_map,
    show (Fin.val ∘ kept : e.Place → Nat) = Fin.val from rfl, he.map_val_children]
  split
  · rfl
  · rw [List.map_nil, List.append_nil]

theorem children_shifted (he : e.Linked) (hc : child.Linked) (q : child.Place) :
    (e.graft p child).children (shifted q) = (child.children q).map shifted := by
  apply eq_of_map_val
  rw [(he.graft hc p).map_val_children, node_children_shifted, ← hc.map_val_children,
    List.map_map, List.map_map]
  exact List.map_congr_left fun c _ => Nat.add_comm c.val e.size

theorem subtree_shifted (he : e.Linked) (hc : child.Linked) (q : child.Place) :
    (e.graft p child).subtree (shifted q) = child.subtree q := by
  induction q using induction_on_children with
  | step q ih =>
    rw [subtree_eq, subtree_eq, label_shifted, children_shifted he hc, List.map_map]
    exact congrArg _ (List.map_congr_left ih)

/-- The nodes which do not have the place of a graft below them keep their trees. -/
theorem subtree_kept (he : e.Linked) (hc : child.Linked) (q : e.Place) (hq : ¬e.Below q p) :
    (e.graft p child).subtree (kept q) = e.subtree q := by
  induction q using induction_on_children with
  | step q ih =>
    have hne : q ≠ p := by
      rintro rfl
      exact hq .refl
    rw [subtree_eq, subtree_eq, label_kept, children_kept he hc, if_neg hne, List.append_nil,
      List.map_map]
    exact congrArg _ (List.map_congr_left fun c hmem =>
      ih c hmem fun hbelow => hq (below_iff.2 (.inr ⟨c, hmem, hbelow⟩)))

end Graft

theorem toTree_single (label : Label) : (single label).toTree = .leaf label := by
  rw [toTree, subtree_eq]
  rfl

theorem toTree_graftAtRoot {child : Expression} (he : e.Linked) (hc : child.Linked) :
    (e.graftAtRoot child).toTree = .node e.toTree.label (e.toTree.children ++ [child.toTree]) := by
  show (e.graft e.root child).subtree (kept e.root) = _
  have hkept : ∀ c ∈ e.children e.root,
      (e.graft e.root child).subtree (kept c) = e.subtree c := fun c hmem =>
    subtree_kept he hc c fun h => absurd h.le (Nat.not_le.2 (lt_of_mem_children hmem))
  rw [subtree_eq, label_kept, children_kept he hc, if_pos rfl, List.map_append, List.map_map,
    List.map_singleton, subtree_shifted he hc, toTree, toTree, subtree_eq e]
  exact congrArg (fun ts => Tree.node _ (ts ++ _)) (List.map_congr_left hkept)

mutual

/-- A labelled tree laid out as an expression is read back from it. -/
theorem toTree_ofTree : ∀ t : Tree, (ofTree t).toTree = t
  | .node label children => by
    rw [ofTree, toTree_graftTrees (linked_single label) children, toTree_single]
    rfl

theorem toTree_graftTrees {e : Expression} (he : e.Linked) :
    ∀ ts : List Tree, (e.graftTrees ts).toTree = .node e.toTree.label (e.toTree.children ++ ts)
  | [] => by
    rw [graftTrees, List.append_nil]
    cases e.toTree
    rfl
  | t :: ts => by
    have hg : (e.graftAtRoot (ofTree t)).Linked := he.graft (linked_ofTree t) e.root
    rw [graftTrees, toTree_graftTrees hg ts, toTree_graftAtRoot he (linked_ofTree t),
      toTree_ofTree t, Tree.label, Tree.children, List.append_assoc, List.singleton_append]

end

end Ordinate.Expression

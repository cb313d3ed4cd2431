import Mathlib.Algebra.GroupWithZero.Nat
import Ordinate.Proofs.Expression.Built
import Ordinate.Proofs.Tree.Steady

/-!
# Expressions numbered in the order of a walk

Grafts put the nodes of an expression behind those which are there, so that a node's number need not
say when a walk from the root meets it.

* `Expression.InOrder` : a walk from the root meets the nodes in the order of their numbers;
* `Expression.InOrder.graftAtRoot`, `Expression.inOrder_ofTree` : grafts at the root keep that, and
  so it holds of every labelled tree which is laid out;
* `Expression.Linked.eq_of_inOrder` : two expressions in order with the same tree are the same, node
  by node, so that to be in order is to be one's own copy;
* `Tree.occurrences`, `Expression.Linked.map_walk` : what a walk meets, in terms of the tree alone;
* `Expression.Built.copy_in_order` : the tree, the numbers and the values of a copy.
-/

namespace Ordinate

universe u

namespace Tree

theorem size_node (label : Label) (ts : List Tree) :
    (node label ts).size = 1 + (ts.map size).sum := by
  rw [size, sizeList_eq_foldr]
  rfl

/-- Where several trees start if each is laid out behind the one before it, the first from the
place with the number `n` on. -/
def starts (n : Nat) : List Tree → List Nat
  | [] => []
  | t :: ts => n :: starts (n + t.size) ts

mutual

/-- The trees below the nodes from the root on, each before those below it and with the label above
it, where `context` is the label above the root. -/
def occurrences (context : Option Label) : Tree → List (Option Label × Tree)
  | node label children => (context, node label children) :: occurrencesList label children

/-- The trees below the nodes of several trees under one node labelled `parent`. -/
def occurrencesList (parent : Label) : List Tree → List (Option Label × Tree)
  | [] => []
  | t :: ts => t.occurrences (some parent) ++ occurrencesList parent ts

end

theorem occurrencesList_eq_flatMap (parent : Label) (ts : List Tree) :
    occurrencesList parent ts = ts.flatMap (occurrences (some parent)) := by
  induction ts with
  | nil => rfl
  | cons t ts ih => rw [occurrencesList, ih, List.flatMap_cons]

theorem occurrences_eq (context : Option Label) (t : Tree) :
    t.occurrences context = (context, t) :: (t.occurrences none).tail := by
  cases t
  rfl

end Tree

namespace Expression

variable {e : Expression}

/-- A walk from the root meets the nodes in the order of their numbers. -/
def InOrder (e : Expression) : Prop :=
  (e.walk e.root).map Fin.val = List.range e.size

/-! ## Grafts at the root -/

section Graft

variable {p : e.Place} {child : Expression} (he : e.Linked) (hc : child.Linked)

include he hc

theorem walk_shifted (q : child.Place) :
    (e.graft p child).walk (shifted q) = (child.walk q).map shifted := by
  induction q using induction_on_children with
  | step q ih =>
    rw [walk_eq, walk_eq, children_shifted he hc, List.flatMap_map, List.map_cons,
      List.map_flatMap]
    exact congrArg _ (List.flatMap_congr ih)

theorem walk_kept (q : e.Place) (hq : ¬e.Below q p) :
    (e.graft p child).walk (kept q) = (e.walk q).map kept := by
  induction q using induction_on_children with
  | step q ih =>
    have hne : q ≠ p := by
      rintro rfl
      exact hq .refl
    rw [walk_eq, walk_eq, children_kept he hc, if_neg hne, List.append_nil, List.flatMap_map,
      List.map_cons, List.map_flatMap]
    refine congrArg _ (List.flatMap_congr fun c hmem => ih c hmem fun hbelow => hq ?_)
    exact below_iff.2 (.inr ⟨c, hmem, hbelow⟩)

theorem walk_graft_root :
    (e.graft e.root child).walk (kept e.root) =
      (e.walk e.root).map kept ++ (child.walk child.root).map shifted := by
  have hkept : ∀ c ∈ e.children e.root,
      (e.graft e.root child).walk (kept c) = (e.walk c).map kept := by
    intro c hmem
    exact walk_kept he hc c fun h => absurd h.le (Nat.not_le.2 (lt_of_mem_children hmem))
  rw [walk_eq, walk_eq e, children_kept he hc, if_pos rfl, List.flatMap_append, List.flatMap_map,
    List.flatMap_congr hkept, List.flatMap_singleton, walk_shifted he hc, List.map_cons,
    List.map_flatMap, List.cons_append]

end Graft

theorem inOrder_single (label : Label) : (single label).InOrder := by
  unfold InOrder
  rw [walk_eq]
  rfl

theorem InOrder.graftAtRoot {child : Expression} (h : e.InOrder) (hchild : child.InOrder)
    (he : e.Linked) (hc : child.Linked) : (e.graftAtRoot child).InOrder := by
  have hkept : ((e.walk e.root).map (kept : e.Place → (e.graft e.root child).Place)).map Fin.val =
      List.range e.size := by
    rw [List.map_map]
    exact h
  have hshifted : ((child.walk child.root).map (shifted (p := e.root))).map Fin.val =
      (List.range child.size).map (e.size + ·) := by
    rw [List.map_map, ← hchild, List.map_map]
    rfl
  show ((e.graft e.root child).walk (kept e.root)).map Fin.val =
    List.range (e.graft e.root child).size
  rw [walk_graft_root he hc, List.map_append, hkept, hshifted, size_graft, List.range_add]

mutual

theorem inOrder_ofTree : ∀ t : Tree, (ofTree t).InOrder
  | .node label children =>
    (inOrder_single label).graftTrees (linked_single label) children

theorem InOrder.graftTrees {e : Expression} (h : e.InOrder) (he : e.Linked) :
    ∀ ts : List Tree, (e.graftTrees ts).InOrder
  | [] => h
  | t :: ts =>
    InOrder.graftTrees (h.graftAtRoot (inOrder_ofTree t) he (linked_ofTree t))
      (he.graft (linked_ofTree t) e.root) ts

end

/-! ## One order for one tree -/

theorem length_walk (p : e.Place) : (e.walk p).length = (e.subtree p).size := by
  induction p using induction_on_children with
  | step p ih =>
    rw [walk_eq, subtree_eq, Tree.size_node, List.length_cons, List.length_flatMap, List.map_map,
      Nat.add_comm]
    exact congrArg (fun sizes => 1 + List.sum sizes) (List.map_congr_left ih)

theorem children_subtree (p : e.Place) :
    (e.subtree p).children = (e.children p).map e.subtree := by
  rw [subtree_eq]
  rfl

/-- The nodes from `p` down have the numbers from that of `p` on, in the order of a walk. -/
def InRow (e : Expression) (p : e.Place) : Prop :=
  (e.walk p).map Fin.val = List.range' p.val (e.subtree p).size

/-- Where walks follow one another without a gap, each starts where the tree of the one before it
ends. -/
theorem inRow_of_flatMap {cs : List e.Place} {n : Nat}
    (h : (cs.flatMap e.walk).map Fin.val = List.range' n (cs.flatMap e.walk).length) :
    cs.map Fin.val = Tree.starts n (cs.map e.subtree) ∧ ∀ c ∈ cs, e.InRow c := by
  induction cs generalizing n with
  | nil => exact ⟨rfl, nofun⟩
  | cons c cs ih =>
    rw [List.flatMap_cons, List.map_append, List.length_append, ← List.range'_append_1] at h
    obtain ⟨hfirst, hrest⟩ := List.append_inj h (by simp)
    have hhead : c.val = n := by
      have := congrArg List.head? hfirst
      rw [walk_eq, List.map_cons, List.length_cons, List.range'_succ] at this
      exact Option.some.inj this
    rw [length_walk] at hfirst hrest
    obtain ⟨hstarts, hrows⟩ := ih hrest
    constructor
    · rw [List.map_cons, List.map_cons, Tree.starts, hhead, hstarts]
    · rw [List.forall_mem_cons]
      refine ⟨?_, hrows⟩
      unfold InRow
      rw [hhead]
      exact hfirst

theorem InRow.children {p : e.Place} (h : e.InRow p) :
    (e.children p).map Fin.val = Tree.starts (p.val + 1) (e.subtree p).children ∧
      ∀ c ∈ e.children p, e.InRow c := by
  rw [children_subtree]
  apply inRow_of_flatMap
  unfold InRow at h
  rw [← length_walk, walk_eq, List.map_cons, List.length_cons, List.range'_succ] at h
  exact (List.cons.inj h).2

theorem Linked.inRow (he : e.Linked) (h : e.InOrder) (p : e.Place) : e.InRow p := by
  have hbelow := he.below_root p
  induction hbelow with
  | refl =>
    have hsize : e.size = (e.subtree e.root).size := by
      rw [← length_walk, ← List.length_map, h, List.length_range]
    exact (h.trans List.range_eq_range').trans (congrArg (List.range' 0) hsize)
  | tail _ hc ih => exact ih.children.2 _ hc

section Unique

variable {d : Expression} (he : e.Linked) (hd : d.Linked) (h : e.InOrder) (h' : d.InOrder)
  (htree : e.toTree = d.toTree)

include he hd h h' htree

/-- In two expressions in order with one tree, the same trees stand at the same numbers, under the
same parents. -/
theorem Linked.exists_same_place (p : e.Place) :
    ∃ q : d.Place, q.val = p.val ∧ d.subtree q = e.subtree p ∧
      (d.node q).parent = (e.node p).parent := by
  have hbelow := he.below_root p
  induction hbelow with
  | refl => exact ⟨d.root, rfl, htree.symm, hd.parent_root.trans he.parent_root.symm⟩
  | @tail p c _ hc ih =>
    obtain ⟨q, hval, hsubtree, -⟩ := ih
    obtain ⟨k, hk⟩ := List.mem_iff_getElem?.1 hc
    have hvals : (d.children q).map Fin.val = (e.children p).map Fin.val := by
      rw [(hd.inRow h' q).children.1, (he.inRow h p).children.1, hval, hsubtree]
    have htrees : (d.children q).map d.subtree = (e.children p).map e.subtree := by
      rw [← children_subtree, ← children_subtree, hsubtree]
    have hvalk : ((d.children q).map Fin.val)[k]? = some c.val := by
      rw [hvals, List.getElem?_map, hk, Option.map_some]
    have htreek : ((d.children q).map d.subtree)[k]? = some (e.subtree c) := by
      rw [htrees, List.getElem?_map, hk, Option.map_some]
    rw [List.getElem?_map, Option.map_eq_some_iff] at hvalk htreek
    obtain ⟨c', hc', hval'⟩ := hvalk
    obtain ⟨c'', hc'', hsubtree'⟩ := htreek
    obtain rfl : c' = c'' := Option.some.inj (hc'.symm.trans hc'')
    refine ⟨c', hval', hsubtree', ?_⟩
    rw [hd.mem_children.1 (List.mem_of_getElem? hc'), he.mem_children.1 hc, hval]

/-- Two expressions in order with the same tree are the same, node by node. -/
theorem Linked.eq_of_inOrder : e = d := by
  have hsize : e.size = d.size := by
    have hlen : ((e.walk e.root).map Fin.val).length = ((d.walk d.root).map Fin.val).length := by
      rw [List.length_map, List.length_map, length_walk, length_walk]
      exact congrArg Tree.size htree
    rwa [h, h', List.length_range, List.length_range] at hlen
  have hnode : ∀ (i : Nat) (hi : i < e.size) (hi' : i < d.size),
      e.node ⟨i, hi⟩ = d.node ⟨i, hi'⟩ := by
    intro i hi hi'
    obtain ⟨q, hval, hsubtree, hparent⟩ := he.exists_same_place hd h h' htree ⟨i, hi⟩
    obtain rfl : q = ⟨i, hi'⟩ := Fin.ext hval
    have hlabel : e.label ⟨i, hi⟩ = d.label ⟨i, hi'⟩ := by
      rw [← label_subtree, ← label_subtree, hsubtree]
    have hchildren : (e.node ⟨i, hi⟩).children = (d.node ⟨i, hi'⟩).children := by
      rw [← he.map_val_children, ← hd.map_val_children, (he.inRow h _).children.1,
        (hd.inRow h' _).children.1, hsubtree]
    unfold label at hlabel
    generalize e.node ⟨i, hi⟩ = m at hlabel hchildren hparent
    generalize d.node ⟨i, hi'⟩ = n at hlabel hchildren hparent
    cases m
    cases n
    simp_all
  have hnodes : e.nodes = d.nodes := Array.ext hsize hnode
  cases e
  cases d
  simp_all

end Unique

theorem Linked.inOrder_iff (he : e.Linked) : e.InOrder ↔ e.copy e.root = e := by
  constructor
  · intro h
    exact (linked_ofTree _).eq_of_inOrder he (inOrder_ofTree _) h (toTree_ofTree _)
  · intro h
    rw [← h]
    exact inOrder_ofTree _

theorem copy_root_ofTree (t : Tree) : (ofTree t).copy (ofTree t).root = ofTree t :=
  (linked_ofTree t).inOrder_iff.1 (inOrder_ofTree t)

/-! ## What a walk meets -/

/-- A walk meets the trees below the nodes in their order in the tree, each under its label there. -/
theorem Linked.map_walk (he : e.Linked) (p : e.Place) :
    (e.walk p).map (fun q => (e.context q, e.subtree q)) =
      (e.subtree p).occurrences (e.context p) := by
  induction p using induction_on_children with
  | step p ih =>
    have hchildren : ∀ c ∈ e.children p, (e.walk c).map (fun q => (e.context q, e.subtree q)) =
        (e.subtree c).occurrences (some (e.label p)) := by
      intro c hc
      rw [ih c hc, he.context_of_mem hc]
    rw [walk_eq, List.map_cons, List.map_flatMap, List.flatMap_congr hchildren, subtree_eq,
      Tree.occurrences, Tree.occurrencesList_eq_flatMap, List.flatMap_map]

section Meets

variable {d : Expression} (he : e.Linked) (hd : d.Linked) {p : e.Place} {q : d.Place}
  (htree : e.subtree p = d.subtree q)

include he hd htree

/-- Below two nodes with one tree, walks meet the same trees under the same labels; at the nodes
themselves the label above may differ. -/
theorem Linked.map_walk_tail :
    (e.walk p).tail.map (fun r => (e.context r, e.subtree r)) =
      (d.walk q).tail.map (fun r => (d.context r, d.subtree r)) := by
  rw [List.map_tail, List.map_tail, he.map_walk, hd.map_walk, htree, Tree.occurrences_eq,
    Tree.occurrences_eq (d.context q)]
  rfl

theorem Linked.map_label_walk : (e.walk p).map e.label = (d.walk q).map d.label := by
  have hroot : e.label p = d.label q := by
    rw [← label_subtree, htree, label_subtree]
  have htail := congrArg (List.map fun met => met.2.label) (he.map_walk_tail hd htree)
  simp only [List.map_map, Function.comp_def, label_subtree] at htail
  rw [walk_eq, walk_eq] at htail ⊢
  rw [List.map_cons, List.map_cons, hroot]
  exact congrArg _ htail

/-- Below two nodes with one tree, the nodes have the same values in place. -/
theorem Linked.map_evaluate_walk_tail {α : Type u} (A : Arithmetic α) (x : α) :
    (e.walk p).tail.map (e.evaluate A x) = (d.walk q).tail.map (d.evaluate A x) := by
  rw [funext (he.evaluate_eq_value A x), funext (hd.evaluate_eq_value A x)]
  have htail := congrArg (List.map fun met => met.2.value A x met.1) (he.map_walk_tail hd htree)
  rwa [List.map_map, List.map_map] at htail

end Meets

/-! ## Copies -/

section Copy

variable {p : e.Place} {α : Type u} (A : Arithmetic α) (x : α)

/-- A copy applies the operator which its node is labelled with, to the values of the node's operands
in place. -/
theorem Linked.evaluate_copy_eq (he : e.Linked) :
    (e.copy p).evaluate A x (e.copy p).root =
      A.nodeValue x none (e.label p) ((e.children p).map (e.evaluate A x)) := by
  have hvalues : (e.children p).map (e.evaluate A x) =
      (e.children p).map (Tree.value A x (some (e.label p)) ∘ e.subtree) := by
    apply List.map_congr_left
    intro c hc
    rw [he.evaluate_eq_value, he.context_of_mem hc, Function.comp]
  rw [evaluate_copy, subtree_eq, Tree.value_node, List.map_map, hvalues]

/-- Where a node does not change under its parent, its copy has the value of the node in place. -/
theorem Linked.evaluate_copy_of_not_changesUnder (he : e.Linked)
    (h : ∀ parent, e.context p = some parent → (e.label p).changesUnder parent = false) :
    (e.copy p).evaluate A x (e.copy p).root = e.evaluate A x p := by
  rw [he.evaluate_copy_eq, evaluate_eq]
  apply Tree.nodeValue_congr
  · intro op hop
    rw [Operator.under_none]
    exact (Tree.under_eq_self_of_not_changesUnder fun parent hp => hop ▸ h parent hp).symm
  · intro _
    rfl

/-- Where a node changes, it applies another operator in place, to the same operands. -/
theorem evaluate_of_changesUnder {parent : Label} (hparent : e.context p = some parent)
    (h : (e.label p).changesUnder parent = true) :
    ∃ op, e.label p = .binary op ∧ op.under (some parent) ≠ op ∧
      e.evaluate A x p = A.nodeValue x none (.binary (op.under (some parent)))
        ((e.children p).map (e.evaluate A x)) := by
  unfold Label.changesUnder at h
  cases hlabel : e.label p with
  | binary op =>
    rw [hlabel] at h
    refine ⟨op, rfl, of_decide_eq_true h, ?_⟩
    rw [evaluate_eq, hlabel, hparent]
    exact A.nodeValue_eq_under x _ parent _
  | _ =>
    rw [hlabel] at h
    cases h

end Copy

/-- Grafts at the root, and with them the constructors for one and two children, keep the order; so
copies, derivatives and what is read from a text are in order, and are their own copies. A copy has
the tree of its node, whichever order the nodes below it have, and no node above its root. Its nodes
below the root have the values which they have in place, and so has its root unless the node changes
under its parent: then the copy applies the operator of the label to the operands' values, and the
node in place that which it changes to. -/
theorem Built.copy_in_order (h : e.Built) :
    (∀ p : e.Place,
      (e.copy p).toTree = e.subtree p ∧
      ((e.copy p).walk (e.copy p).root).map (e.copy p).label = (e.walk p).map e.label ∧
      ((e.copy p).node (e.copy p).root).parent = none ∧
      (e.copy p).InOrder ∧ (e.copy p).copy (e.copy p).root = e.copy p) ∧
    (∀ (p : e.Place) (α : Type u) (A : Arithmetic α) (x : α),
      ((e.copy p).walk (e.copy p).root).tail.map ((e.copy p).evaluate A x) =
        (e.walk p).tail.map (e.evaluate A x) ∧
      ((∀ parent, e.context p = some parent → (e.label p).changesUnder parent = false) →
        (e.copy p).evaluate A x (e.copy p).root = e.evaluate A x p) ∧
      ∀ parent, e.context p = some parent → (e.label p).changesUnder parent = true →
        ∃ op, e.label p = .binary op ∧ op.under (some parent) ≠ op ∧
          e.evaluate A x p = A.nodeValue x none (.binary (op.under (some parent)))
            ((e.children p).map (e.evaluate A x)) ∧
          (e.copy p).evaluate A x (e.copy p).root = A.nodeValue x none (.binary op)
            ((e.children p).map (e.evaluate A x))) ∧
    (∀ label, (Expression.single label).InOrder) ∧
    (e.InOrder → (∀ label, (Expression.unary label e).InOrder) ∧
      ∀ d : Expression, d.Built → d.InOrder →
        (e.graftAtRoot d).InOrder ∧ ∀ op, (Expression.binary op e d).InOrder) ∧
    (e.InOrder ↔ e.copy e.root = e) ∧
    (∀ (p : e.Place) (r : GapRecord) (d : Expression), d = (e.derivativeWith p r).1 →
      d.InOrder ∧ d.copy d.root = d) ∧
    ∀ (limits : Parse.Limits) (text : String) (s : Parse.State) (d : Expression),
      (Parse.parse limits text s).1.map ofTree = .ok d → d.InOrder ∧ d.copy d.root = d := by
  have he := h.linked
  have hcopy : ∀ p, (e.copy p).Linked := fun p => linked_ofTree (e.subtree p)
  have htree : ∀ p, (e.copy p).subtree (e.copy p).root = e.subtree p := fun p =>
    toTree_ofTree (e.subtree p)
  refine ⟨fun p => ⟨htree p, ?_, (hcopy p).parent_root, inOrder_ofTree _, copy_root_ofTree _⟩,
    fun p α A x => ⟨?_, he.evaluate_copy_of_not_changesUnder A x, ?_⟩, inOrder_single,
    fun horder => ⟨fun label => ?_, fun d hd horder' => ⟨?_, fun op => ?_⟩⟩, he.inOrder_iff, ?_, ?_⟩
  · exact (hcopy p).map_label_walk he (htree p)
  · exact (hcopy p).map_evaluate_walk_tail he (htree p) A x
  · intro parent hparent hchanges
    obtain ⟨op, hlabel, hne, hvalue⟩ := evaluate_of_changesUnder A x hparent hchanges
    exact ⟨op, hlabel, hne, hvalue, hlabel ▸ he.evaluate_copy_eq A x⟩
  · exact (inOrder_single label).graftAtRoot horder (linked_single label) he
  · exact horder.graftAtRoot horder' he hd.linked
  · have hleft := (inOrder_single (.binary op)).graftAtRoot horder (linked_single _) he
    exact hleft.graftAtRoot horder' ((linked_single _).graft he _) hd.linked
  · rintro p r d rfl
    exact ⟨inOrder_ofTree _, copy_root_ofTree _⟩
  · intro limits text s d hd
    cases hparse : (Parse.parse limits text s).1 with
    | error failure =>
      rw [hparse] at hd
      cases hd
    | ok t =>
      rw [hparse] at hd
      cases hd
      exact ⟨inOrder_ofTree t, copy_root_ofTree t⟩

def lateOperands.sum : lateOperands.Place :=
  ⟨1, by decide +kernel⟩

theorem Built.copy_in_order_lateOperands :
    lateOperands.Built ∧ ¬lateOperands.InOrder ∧
      lateOperands.copy lateOperands.root ≠ lateOperands ∧
      (lateOperands.copy lateOperands.root).InOrder ∧
      ∀ x : Float, ∃ values,
        lateOperands.evaluate .float x lateOperands.sum =
          Arithmetic.float.nodeValue x none (.binary .subtract) values ∧
        (lateOperands.copy lateOperands.sum).evaluate .float x
          (lateOperands.copy lateOperands.sum).root =
            Arithmetic.float.nodeValue x none (.binary .add) values := by
  have hbuilt : lateOperands.Built :=
    .graftAt (.graftAt (.graftAt (.binary _ (.single _) (.single _)) 7 (.single _)) 1 (.single _)) 1
      (.single _)
  have hwalk : ¬lateOperands.InOrder := by
    unfold InOrder
    decide +kernel
  have hcontext : lateOperands.context lateOperands.sum = some (.binary .subtract) := by
    decide +kernel
  have hlabel : lateOperands.label lateOperands.sum = .binary .add := by decide +kernel
  obtain ⟨hcopy, hvalue, -, -, hiff, -⟩ := Built.copy_in_order.{0} hbuilt
  refine ⟨hbuilt, hwalk, fun h => hwalk (hiff.2 h), (hcopy _).2.2.2.1, fun x => ?_⟩
  obtain ⟨op, hop, -, hhere, hthere⟩ :=
    (hvalue lateOperands.sum Float .float x).2.2 _ hcontext (hlabel ▸ rfl)
  obtain rfl : op = .add := Label.binary.inj (hop.symm.trans hlabel)
  exact ⟨_, hhere, hthere⟩

end Expression

end Ordinate

import Mathlib.Data.List.Count
import Ordinate.Proofs.Expression.Recursion

/-!
# Expressions which the operations make

* `Expression.Built` : the expression comes from the operations, in any order and number;
* `Expression.Built.linked`, `Expression.built_ofTree` : its links are sound, and every labelled
  tree is laid out as such an expression;
* `Expression.Built.invariant` : where its links lead, how a walk over it goes, and that the
  recursions over its nodes end.
-/

namespace Ordinate.Expression

universe u

/-- The expression `e` with `child` under the node at the place with the number `i`; `e` itself if
it has no such place. -/
def graftAt (e : Expression) (i : Nat) (child : Expression) : Expression :=
  (e.graft? i child).elim e Prod.fst

/-- The expression comes from the operations, in any order and number. What is built may be used
more than once, so that a clone needs no step. -/
inductive Built : Expression → Prop
  | single (label : Label) : Built (single label)
  | unary (label : Label) {child : Expression} (hc : Built child) : Built (unary label child)
  | binary (op : Operator) {left right : Expression} (hl : Built left) (hr : Built right) :
      Built (binary op left right)
  | graftAtRoot {e child : Expression} (he : Built e) (hc : Built child) :
      Built (e.graftAtRoot child)
  | graftAt {e child : Expression} (he : Built e) (i : Nat) (hc : Built child) :
      Built (e.graftAt i child)
  | copy {e : Expression} (he : Built e) (p : e.Place) : Built (e.copy p)
  | parsed {limits : Parse.Limits} {text : String} {s : Parse.State} {t : Tree}
      (h : (Parse.parse limits text s).1 = .ok t) : Built (ofTree t)
  | derivative {e : Expression} (he : Built e) (p : e.Place) (r : GapRecord) :
      Built (e.derivativeWith p r).1

variable {e : Expression}

theorem Linked.graftAt {child : Expression} (he : e.Linked) (hc : child.Linked) (i : Nat) :
    (e.graftAt i child).Linked := by
  unfold Expression.graftAt graft?
  cases e.place? i with
  | none => exact he
  | some p => exact he.graft hc p

/-- Every operation makes an expression with sound links of such expressions. -/
theorem Built.linked (h : e.Built) : e.Linked := by
  induction h with
  | single label => exact linked_single label
  | unary label _ hc => exact (linked_single label).graft hc _
  | binary op _ _ hl hr => exact ((linked_single _).graft hl _).graft hr _
  | graftAtRoot _ _ he hc => exact he.graft hc _
  | graftAt _ i _ he hc => exact he.graftAt hc i
  | copy _ p => exact linked_ofTree _
  | parsed => exact linked_ofTree _
  | derivative _ p r => exact linked_ofTree _

theorem built_of_ofText {text : String} {limits : Parse.Limits}
    (h : ofText text limits = .ok e) : e.Built := by
  unfold ofText at h
  cases hparse : (Parse.parse limits text {}).1 with
  | error failure =>
    rw [hparse] at h
    cases h
  | ok t =>
    rw [hparse] at h
    cases h
    exact .parsed hparse

theorem Built.foldl_graftAtRoot {es : List Expression} (he : e.Built) (hes : ∀ c ∈ es, c.Built) :
    (es.foldl Expression.graftAtRoot e).Built := by
  induction es generalizing e with
  | nil => exact he
  | cons c es ih =>
    rw [List.forall_mem_cons] at hes
    exact ih (he.graftAtRoot hes.1) hes.2

/-- Every labelled tree, with any number of children at its nodes, is laid out as an expression which
the operations make. -/
theorem built_ofTree (t : Tree) : (ofTree t).Built := by
  induction t with
  | node label children ih =>
    rw [ofTree_node]
    exact (Built.single label).foldl_graftAtRoot (List.forall_mem_map.2 ih)

/-- A node other than the root is once among the children of its parent, and among those of no
other node. -/
theorem Linked.exists_parent_count (he : e.Linked) {c : e.Place} (hc : c ≠ e.root) :
    ∃ p : e.Place, (e.node c).parent = some p.val ∧ (e.node p).children.count c.val = 1 ∧
      ∀ q : e.Place, q ≠ p → c.val ∉ (e.node q).children := by
  obtain ⟨p, hp⟩ := he.exists_parent c hc
  refine ⟨p, hp, ?_, fun q hq hmem => hq ?_⟩
  · exact List.count_eq_one_of_mem (he.nodup_children p) ((he.mem_children_iff p c).2 hp)
  · have hparent := hp.symm.trans ((he.mem_children_iff q c).1 hmem)
    exact Fin.ext (Option.some.inj hparent).symm

/-- Whatever the operations make has its root at the start and without a parent, links which lead to
nodes, children behind their parents, and each other node once among all children, under the node
which it names as its parent. So a walk over the children meets each node once, every recursion over
the stored children ends with one result, and those of the library end with what its functions
give. -/
theorem Built.invariant (h : e.Built) :
    (e.root.val = 0 ∧ (e.node e.root).parent = none) ∧
    (∀ (p : e.Place) (i : Nat), i ∈ (e.node p).children → p.val < i ∧ i < e.size) ∧
    (∀ (p : e.Place) (i : Nat), (e.node p).parent = some i → i < e.size) ∧
    (∀ c : e.Place, c ≠ e.root → ∃ p : e.Place, (e.node c).parent = some p.val ∧
      (e.node p).children.count c.val = 1 ∧
        ∀ q : e.Place, q ≠ p → c.val ∉ (e.node q).children) ∧
    (e.walk e.root).Perm (List.finRange e.size) ∧ (e.walk e.root).length = e.size ∧
    ∀ p : e.Place,
      (∀ (β : Type u) (f : e.Place → List β → β), ∃! b, e.Yields f p.val b) ∧
      e.Yields (fun p walks => p :: walks.flatten) p.val (e.walk p) ∧
      (∀ (α : Type u) (A : Arithmetic α) (x : α),
        e.Yields (e.visit (valueRule A x)) p.val (e.evaluate A x p)) ∧
      e.Yields (e.visit copyRule) p.val (e.copy p) ∧
      e.Yields (e.visit renderRule) p.val (fun level => (e.render p level).toList) ∧
      e.Yields (e.visit appliedRule) p.val (e.applied p) ∧
      e.Yields (e.visit derivativeRule) p.val (e.subtree p).derivative ∧
      e.Yields (e.visit fixedRule) p.val (e.subtree p).hasFixedValue := by
  have he := h.linked
  refine ⟨⟨rfl, he.parent_root⟩, he.exists_child, ?_, ?_, he.walk_root_perm, ?_, ?_⟩
  · intro p i hi
    exact (he.parent_lt hi).trans p.isLt
  · intro c hc
    exact he.exists_parent_count hc
  · rw [he.walk_root_perm.length_eq, List.length_finRange]
  · intro p
    refine ⟨fun β f => ?_, he.yields_fold _ p, fun α A x => he.yields_evaluate A x p,
      he.yields_copy p, he.yields_render p, he.yields_applied p, he.yields_derivative p,
      he.yields_hasFixedValue p⟩
    exact ⟨e.fold f p, he.yields_fold f p, fun b hb => he.yields_iff.1 hb⟩

/-- A difference whose left side gets its operands when its right side is there, after one has been
refused because there is no place for it. -/
def lateOperands : Expression :=
  (((binary .subtract (single (.binary .add)) (single .var)).graftAt 7 (single .var)).graftAt 1
    (single .var)).graftAt 1 (single .var)

theorem Built.invariant_lateOperands :
    lateOperands.Built ∧ (lateOperands.walk lateOperands.root).map Fin.val = [0, 1, 3, 4, 2] ∧
      (lateOperands.walk lateOperands.root).Perm (List.finRange lateOperands.size) ∧
      ∃ p : lateOperands.Place, (lateOperands.node ⟨3, by decide +kernel⟩).parent = some p.val := by
  have hbuilt : lateOperands.Built :=
    .graftAt (.graftAt (.graftAt (.binary _ (.single _) (.single _)) 7 (.single _)) 1 (.single _)) 1
      (.single _)
  obtain ⟨-, -, -, hparent, hwalk, -⟩ := Built.invariant.{0} hbuilt
  obtain ⟨p, hp, -⟩ := hparent ⟨3, by decide +kernel⟩ (by decide +kernel)
  exact ⟨hbuilt, by decide +kernel, hwalk, p, hp⟩

end Ordinate.Expression

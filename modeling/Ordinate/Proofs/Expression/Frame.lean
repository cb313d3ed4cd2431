import Ordinate.Proofs.Expression.Built
import Ordinate.Proofs.Tree.Value

/-!
# What a graft leaves alone

* `Expression.context_kept`, `Expression.context_shifted` : the labels above the nodes of a graft;
* `Expression.Linked.evaluate_shifted_root` : what the grafted root is worth;
* `Expression.Built.graft_frame` : which nodes, links, values, lines and derivatives a graft keeps.
-/

namespace Ordinate

universe u

namespace Expression

section Graft

variable {e child : Expression} {p : e.Place}

/-! ## Nodes of a graft -/

theorem graft?_eq_none {i : Nat} (hi : e.size ≤ i) : e.graft? i child = none := by
  unfold graft? place?
  rw [dif_neg (Nat.not_lt.2 hi)]
  rfl

@[simp] theorem graft?_val (p : e.Place) : e.graft? p.val child = some (e.graft p child, e.size) := by
  unfold graft?
  rw [place?_eq_some_iff.2 rfl]
  rfl

theorem graftAt_eq_self {i : Nat} (hi : e.size ≤ i) : e.graftAt i child = e := by
  unfold graftAt
  rw [graft?_eq_none hi]
  rfl

@[simp] theorem graftAt_val (p : e.Place) : e.graftAt p.val child = e.graft p child := by
  unfold graftAt
  rw [graft?_val]
  rfl

theorem node_kept_eq (q : e.Place) :
    (e.graft p child).node (kept q) =
      ⟨e.label q, (e.node q).children ++ (if q = p then [e.size] else []), (e.node q).parent⟩ := by
  rw [node_kept]
  split
  · rfl
  · rw [List.append_nil]
    rfl

theorem node_shifted_eq (q : child.Place) :
    (e.graft p child).node (shifted q) =
      ⟨child.label q, (child.node q).children.map (· + e.size),
        if q = child.root then some p.val else (child.node q).parent.map (· + e.size)⟩ := by
  rw [node_shifted]
  split <;> rfl

/-! ## Contexts in a graft -/

theorem context_kept (he : e.Linked) (hc : child.Linked) (q : e.Place) :
    (e.graft p child).context (kept q) = e.context q := by
  have hg := he.graft hc p
  by_cases hq : q = e.root
  · subst hq
    rw [he.context_root]
    exact hg.context_root
  · obtain ⟨a, ha⟩ := he.exists_parent q hq
    have hmem : kept q ∈ (e.graft p child).children (kept a) :=
      hg.mem_children.2 ((parent_kept q).trans ha)
    rw [hg.context_of_mem hmem, he.context_of_mem (he.mem_children.2 ha), label_kept]

theorem context_shifted (he : e.Linked) (hc : child.Linked) {q : child.Place}
    (hq : q ≠ child.root) : (e.graft p child).context (shifted q) = child.context q := by
  obtain ⟨a, ha⟩ := hc.exists_parent q hq
  have hmem : q ∈ child.children a := hc.mem_children.2 ha
  have hmem' : shifted q ∈ (e.graft p child).children (shifted a) := by
    rw [children_shifted he hc]
    exact List.mem_map_of_mem hmem
  rw [(he.graft hc p).context_of_mem hmem', hc.context_of_mem hmem, label_shifted]

theorem context_shifted_root (he : e.Linked) (hc : child.Linked) :
    (e.graft p child).context (shifted child.root) = some (e.label p) := by
  have hmem : shifted child.root ∈ (e.graft p child).children (kept p) := by
    rw [children_kept he hc, if_pos rfl]
    exact List.mem_append_right _ (List.mem_singleton_self _)
  rw [(he.graft hc p).context_of_mem hmem, label_kept]

/-! ## Values in a graft -/

namespace Linked

section Kept

variable (he : e.Linked) (hc : child.Linked) {q : e.Place} (hq : ¬e.Below q p)

include he hc hq

theorem evaluate_kept {α : Type u} (A : Arithmetic α) (x : α) :
    (e.graft p child).evaluate A x (kept q) = e.evaluate A x q := by
  rw [(he.graft hc p).evaluate_eq_value, he.evaluate_eq_value, context_kept he hc,
    subtree_kept he hc q hq]

theorem render_kept (level : Nat) :
    (e.graft p child).render (kept q) level = e.render q level := by
  unfold render
  rw [subtree_kept he hc q hq]

theorem derivativeWith_kept (r : GapRecord) :
    (e.graft p child).derivativeWith (kept q) r = e.derivativeWith q r := by
  unfold derivativeWith
  rw [subtree_kept he hc q hq, context_kept he hc]

end Kept

theorem evaluate_shifted (he : e.Linked) (hc : child.Linked) {q : child.Place}
    (hq : q ≠ child.root) {α : Type u} (A : Arithmetic α) (x : α) :
    (e.graft p child).evaluate A x (shifted q) = child.evaluate A x q := by
  rw [(he.graft hc p).evaluate_eq_value, hc.evaluate_eq_value, context_shifted he hc hq,
    subtree_shifted he hc]

/-- The grafted root is worth what it was worth before, but for the operator which it applies under
its new parent. -/
theorem evaluate_shifted_root (he : e.Linked) (hc : child.Linked) {α : Type u}
    (A : Arithmetic α) (x : α) :
    let values := (child.children child.root).map (child.evaluate A x)
    child.evaluate A x child.root = A.nodeValue x none (child.label child.root) values ∧
      (e.graft p child).evaluate A x (shifted child.root) =
        A.nodeValue x none ((child.label child.root).under (e.label p)) values := by
  intro values
  have hvalues : (child.children child.root).map
      ((e.graft p child).evaluate A x ∘ shifted) = values :=
    List.map_congr_left fun c hmem => by
      have hne : c ≠ child.root := Fin.ne_of_gt (lt_of_mem_children hmem)
      exact he.evaluate_shifted hc hne A x
  constructor
  · rw [evaluate_eq, hc.context_root]
  · rw [evaluate_eq, context_shifted_root he hc, label_shifted, children_shifted he hc,
      List.map_map, hvalues, Arithmetic.nodeValue_eq_under]

end Linked

end Graft

/-! ## Grafts -/

/-- A graft under a number which no node has is refused and changes nothing. Any other graft gives
every old node back as it was, but for one more child at its end of the node which gets it, and the
nodes of the child in their order with all links moved. An old node without the place of the graft
below it keeps its value, its lines and its derivative. A new one keeps its value, but for the
operator which the root of the child applies under its new parent. -/
theorem Built.graft_frame {e child : Expression} (he : e.Built) (hc : child.Built) :
    (∀ i, e.size ≤ i → e.graft? i child = none ∧ e.graftAt i child = e) ∧
    ∀ p : e.Place,
      (e.graft? p.val child = some (e.graft p child, e.size) ∧
        e.graftAt p.val child = e.graft p child ∧
        (e.graft p child).size = e.size + child.size) ∧
      (∀ q : e.Place, (e.graft p child).node (kept q) =
        ⟨e.label q, (e.node q).children ++ (if q = p then [e.size] else []), (e.node q).parent⟩) ∧
      (∀ q : child.Place, (e.graft p child).node (shifted q) =
        ⟨child.label q, (child.node q).children.map (· + e.size),
          if q = child.root then some p.val else (child.node q).parent.map (· + e.size)⟩) ∧
      (∀ q : e.Place, ¬e.Below q p →
        (∀ (α : Type u) (A : Arithmetic α) (x : α),
          (e.graft p child).evaluate A x (kept q) = e.evaluate A x q) ∧
        (∀ level, (e.graft p child).render (kept q) level = e.render q level) ∧
        ∀ r, (e.graft p child).derivativeWith (kept q) r = e.derivativeWith q r) ∧
      ∀ (α : Type u) (A : Arithmetic α) (x : α),
        (∀ q : child.Place, q ≠ child.root →
          (e.graft p child).evaluate A x (shifted q) = child.evaluate A x q) ∧
        let values := (child.children child.root).map (child.evaluate A x)
        child.evaluate A x child.root = A.nodeValue x none (child.label child.root) values ∧
          (e.graft p child).evaluate A x (shifted child.root) =
            A.nodeValue x none ((child.label child.root).under (e.label p)) values := by
  have he := he.linked
  have hc := hc.linked
  constructor
  · intro i hi
    exact ⟨graft?_eq_none hi, graftAt_eq_self hi⟩
  · intro p
    refine ⟨⟨graft?_val p, graftAt_val p, size_graft e p child⟩, node_kept_eq, node_shifted_eq,
      ?_, ?_⟩
    · intro q hq
      exact ⟨fun α A x => he.evaluate_kept hc hq A x, he.render_kept hc hq,
        he.derivativeWith_kept hc hq⟩
    · intro α A x
      exact ⟨fun q hq => he.evaluate_shifted hc hq A x, he.evaluate_shifted_root hc A x⟩

/-- A product whose left side is a difference which has got its left side late, and no right one. -/
def openDifference : Expression :=
  (binary .multiply (single (.binary .subtract)) (single .var)).graftAt 1 (single .var)

def openDifference.difference : openDifference.Place :=
  ⟨1, by decide +kernel⟩

def openDifference.factor : openDifference.Place :=
  ⟨2, by decide +kernel⟩

/-- A difference to stand on the right side of another one. -/
def openDifference.rightSide : Expression :=
  binary .subtract (single .var) (single .var)

theorem Built.graft_frame_openDifference :
    let g := openDifference.graft openDifference.difference openDifference.rightSide
    openDifference.graft? 4 openDifference.rightSide = none ∧
      openDifference.graft? 1 openDifference.rightSide = some (g, 4) ∧
      (g.node (kept openDifference.difference)).children = [3, 4] ∧
      ∀ x : Float,
        g.evaluate .float x (kept openDifference.factor) =
            openDifference.evaluate .float x openDifference.factor ∧
          g.evaluate .float x (shifted openDifference.rightSide.root) = Float.add x x := by
  have he : openDifference.Built := .graftAt (.binary _ (.single _) (.single _)) 1 (.single _)
  have hc : openDifference.rightSide.Built := .binary _ (.single _) (.single _)
  have hsize : openDifference.size = 4 := by decide +kernel
  have hbelow : ¬openDifference.Below openDifference.factor openDifference.difference := fun h =>
    absurd h.le (by decide)
  obtain ⟨hnone, hgraft⟩ := Built.graft_frame.{0} he hc
  obtain ⟨⟨hsome, -⟩, hkept, -, hvalue, hroot⟩ := hgraft openDifference.difference
  refine ⟨(hnone 4 hsize.le).1, hsome.trans (congrArg (fun n => some (_, n)) hsize), ?_,
    fun x => ⟨?_, ?_⟩⟩
  · rw [hkept]
    decide +kernel
  · exact (hvalue _ hbelow).1 Float .float x
  · have hunder : (openDifference.rightSide.label openDifference.rightSide.root).under
        (openDifference.label openDifference.difference) = .binary .add := by decide +kernel
    have hchildren : openDifference.rightSide.children openDifference.rightSide.root =
        [⟨1, by decide +kernel⟩, ⟨2, by decide +kernel⟩] := by decide +kernel
    have hlabel : ∀ c ∈ openDifference.rightSide.children openDifference.rightSide.root,
        openDifference.rightSide.label c = .var := by decide +kernel
    have hvar : ∀ c ∈ openDifference.rightSide.children openDifference.rightSide.root,
        openDifference.rightSide.evaluate .float x c = x := by
      intro c hc
      rw [evaluate_eq, hlabel c hc]
      rfl
    have hvalues : (openDifference.rightSide.children openDifference.rightSide.root).map
        (openDifference.rightSide.evaluate .float x) = [x, x] := by
      rw [List.map_congr_left hvar, hchildren]
      rfl
    have hvalue := (hroot Float .float x).2.2
    rw [hunder, hvalues] at hvalue
    exact hvalue

end Expression

end Ordinate

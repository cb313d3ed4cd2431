import Mathlib.Data.List.Nodup
import Ordinate.Expression.Evaluate
import Ordinate.Expression.Graft

/-!
# Sound links

* `Expression.Linked` : parents and children name each other, children stand after their parents,
  and no node is a child twice;
* `Expression.Linked.graft`, `Expression.linked_ofTree` : the links of a graft of two such
  expressions and of a labelled tree are sound;
* `Expression.Linked.map_val_children`, `Expression.Linked.context_of_mem` : no stored link is left
  out of `Expression.children`, and a child's context is the label of the node it was reached from;
* `Expression.induction_on_children` : a property of nodes which each node has from its children
  holds of all nodes.
-/

namespace Ordinate.Expression

/-- The links of an expression are sound. -/
structure Linked (e : Expression) : Prop where
  /-- The root has no parent. -/
  parent_root : (e.node e.root).parent = none
  /-- Every other node has one. -/
  exists_parent : ∀ c : e.Place, c ≠ e.root → ∃ p : e.Place, (e.node c).parent = some p.val
  /-- Every child is a node, and stands after its parent. -/
  exists_child : ∀ (p : e.Place) (i : Nat), i ∈ (e.node p).children → p.val < i ∧ i < e.size
  /-- Parents and children name each other. -/
  mem_children_iff : ∀ p c : e.Place,
    c.val ∈ (e.node p).children ↔ (e.node c).parent = some p.val
  /-- No node is a child twice. -/
  nodup_children : ∀ p : e.Place, (e.node p).children.Nodup

/-! ## The nodes of a graft -/

section Graft

variable {e : Expression} {p : e.Place} {child : Expression}

/-- The place of a node of `e` after a graft. -/
def kept (q : e.Place) : (e.graft p child).Place :=
  ⟨q.val, by rw [size_graft]; omega⟩

/-- The place of a node of the grafted expression. -/
def shifted (q : child.Place) : (e.graft p child).Place :=
  ⟨e.size + q.val, by rw [size_graft]; omega⟩

@[simp] theorem kept_val (q : e.Place) : (kept q : (e.graft p child).Place).val = q.val := rfl

@[simp] theorem shifted_val (q : child.Place) :
    (shifted q : (e.graft p child).Place).val = e.size + q.val := rfl

theorem exists_kept_or_shifted (r : (e.graft p child).Place) :
    (∃ q : e.Place, r = kept q) ∨ ∃ q : child.Place, r = shifted q := by
  have hr : r.val < e.size + child.size := size_graft e p child ▸ r.isLt
  by_cases h : r.val < e.size
  · exact .inl ⟨⟨r.val, h⟩, rfl⟩
  · refine .inr ⟨⟨r.val - e.size, by omega⟩, Fin.ext ?_⟩
    simp only [shifted_val]
    omega

theorem node_kept (q : e.Place) :
    (e.graft p child).node (kept q) = if q = p then (e.node q).withChild e.size else e.node q := by
  have hq : q.val < e.nodes.size := q.isLt
  have hne : e.size ≠ q.val := Nat.ne_of_gt hq
  simp only [node, graft, kept_val, Array.getElem_modify, hne, if_false, Array.size_modify, hq,
    Array.getElem_append_left, Fin.ext_iff, eq_comm (a := q.val)]
  split <;> rfl

theorem node_shifted (q : child.Place) :
    (e.graft p child).node (shifted q) =
      if q = child.root then ((child.node q).moved e.size).withParent p.val
      else (child.node q).moved e.size := by
  have hsize : (e.nodes.modify p.val (Node.withChild e.size)).size ≤ e.size + q.val := by
    rw [Array.size_modify]
    exact Nat.le_add_right _ _
  have hroot : e.size = e.size + q.val ↔ q = child.root := by
    rw [Fin.ext_iff]
    show _ ↔ q.val = 0
    omega
  simp only [node, graft, shifted_val, Array.getElem_modify, hroot,
    Array.getElem_append_right hsize, Array.getElem_map, Array.size_modify]
  simp only [size, Nat.add_sub_cancel_left]
  split <;> rfl

@[simp] theorem label_kept (q : e.Place) : (e.graft p child).label (kept q) = e.label q := by
  rw [label, node_kept]
  split <;> rfl

@[simp] theorem label_shifted (q : child.Place) :
    (e.graft p child).label (shifted q) = child.label q := by
  rw [label, node_shifted]
  split <;> rfl

@[simp] theorem parent_kept (q : e.Place) :
    ((e.graft p child).node (kept q)).parent = (e.node q).parent := by
  rw [node_kept]
  split <;> rfl

theorem parent_shifted (q : child.Place) :
    ((e.graft p child).node (shifted q)).parent =
      if q = child.root then some p.val else (child.node q).parent.map (· + e.size) := by
  rw [node_shifted]
  split <;> rfl

theorem node_children_kept (q : e.Place) :
    ((e.graft p child).node (kept q)).children =
      if q = p then (e.node q).children ++ [e.size] else (e.node q).children := by
  rw [node_kept]
  split <;> rfl

@[simp] theorem node_children_shifted (q : child.Place) :
    ((e.graft p child).node (shifted q)).children =
      (child.node q).children.map (· + e.size) := by
  rw [node_shifted]
  split <;> rfl

end Graft

/-! ## Links of nodes and of grafts -/

theorem linked_single (label : Label) : (single label).Linked where
  parent_root := rfl
  exists_parent c hc := absurd (Subsingleton.elim (α := Fin 1) c (single label).root) hc
  exists_child p i hi := by
    rw [show p = (single label).root from Subsingleton.elim (α := Fin 1) _ _] at hi
    cases hi
  mem_children_iff p c := by
    rw [show p = (single label).root from Subsingleton.elim (α := Fin 1) _ _,
      show c = (single label).root from Subsingleton.elim (α := Fin 1) _ _]
    exact ⟨nofun, nofun⟩
  nodup_children p := by
    rw [show p = (single label).root from Subsingleton.elim (α := Fin 1) _ _]
    exact List.nodup_nil

namespace Linked

variable {e : Expression}

theorem lt_size (he : e.Linked) {p : e.Place} {i : Nat} (hi : i ∈ (e.node p).children) :
    i < e.size :=
  (he.exists_child p i hi).2

theorem parent_lt (he : e.Linked) {c : e.Place} {i : Nat} (h : (e.node c).parent = some i) :
    i < c.val := by
  have hc : c ≠ e.root := by
    rintro rfl
    cases he.parent_root.symm.trans h
  obtain ⟨p, hp⟩ := he.exists_parent c hc
  cases hp.symm.trans h
  exact (he.exists_child p c.val ((he.mem_children_iff p c).2 hp)).1

section Graft

variable {p : e.Place} {child : Expression}

theorem mem_children_kept_kept (he : e.Linked) (q c : e.Place) :
    c.val ∈ ((e.graft p child).node (kept q)).children ↔ (e.node c).parent = some q.val := by
  have hne : c.val ≠ e.size := Nat.ne_of_lt c.isLt
  rw [node_children_kept, ← he.mem_children_iff]
  split <;> simp [hne]

/-- The only link from an old node to a new one is that of the graft. -/
theorem mem_children_kept_shifted (he : e.Linked) (q : e.Place) (i : Nat) :
    e.size + i ∈ ((e.graft p child).node (kept q)).children ↔ q = p ∧ i = 0 := by
  have hnot : e.size + i ∉ (e.node q).children := fun h => by
    have := he.lt_size h
    omega
  rw [node_children_kept]
  split
  · next h =>
    subst h
    simp [hnot]
  · next h => simp [hnot, h]

theorem mem_children_shifted_kept (q : child.Place) (c : e.Place) :
    c.val ∉ ((e.graft p child).node (shifted q)).children := by
  rw [node_children_shifted, List.mem_map]
  rintro ⟨j, -, hj⟩
  have := c.isLt
  omega

theorem mem_children_shifted_shifted (q : child.Place) (i : Nat) :
    e.size + i ∈ ((e.graft p child).node (shifted q)).children ↔ i ∈ (child.node q).children := by
  rw [node_children_shifted, Nat.add_comm, List.mem_map_of_injective]
  exact fun _ _ => Nat.add_right_cancel

theorem graft (he : e.Linked) (hc : child.Linked) (p : e.Place) : (e.graft p child).Linked where
  parent_root := (parent_kept e.root).trans he.parent_root
  exists_parent r hr := by
    obtain ⟨q, rfl⟩ | ⟨q, rfl⟩ := exists_kept_or_shifted r
    · have hq : q ≠ e.root := by
        rintro rfl
        exact hr rfl
      obtain ⟨a, ha⟩ := he.exists_parent q hq
      exact ⟨kept a, (parent_kept q).trans ha⟩
    · by_cases hq : q = child.root
      · exact ⟨kept p, by rw [parent_shifted, if_pos hq, kept_val]⟩
      · obtain ⟨a, ha⟩ := hc.exists_parent q hq
        refine ⟨shifted a, ?_⟩
        rw [parent_shifted, if_neg hq, ha, Option.map_some, shifted_val, Nat.add_comm]
  exists_child r i hi := by
    have hsize := size_graft e p child
    have hpos := child.size_pos
    obtain ⟨q, rfl⟩ | ⟨q, rfl⟩ := exists_kept_or_shifted r
    · have hq := q.isLt
      have hold : i ∈ (e.node q).children → q.val < i ∧ i < e.size := he.exists_child q i
      rw [node_children_kept] at hi
      rw [kept_val]
      split at hi
      · rcases List.mem_append.1 hi with hi | hi
        · have := hold hi
          omega
        · have := List.mem_singleton.1 hi
          omega
      · have := hold hi
        omega
    · rw [node_children_shifted, List.mem_map] at hi
      obtain ⟨j, hj, rfl⟩ := hi
      have := hc.exists_child q j hj
      rw [shifted_val]
      omega
  mem_children_iff r s := by
    -- A link joins two old nodes, two new ones, or the two ends of the graft.
    obtain ⟨q, rfl⟩ | ⟨q, rfl⟩ := exists_kept_or_shifted r <;>
      obtain ⟨c, rfl⟩ | ⟨c, rfl⟩ := exists_kept_or_shifted s
    · rw [kept_val c, parent_kept, kept_val, mem_children_kept_kept he]
    · rw [shifted_val, he.mem_children_kept_shifted, parent_shifted, kept_val]
      by_cases hcr : c = child.root
      · rw [if_pos hcr, Option.some.injEq, hcr, Fin.ext_iff, eq_comm]
        exact and_iff_left rfl
      · have hpos : c.val ≠ 0 := fun h => hcr (Fin.ext h)
        rw [if_neg hcr]
        refine ⟨fun h => absurd h.2 hpos, fun h => ?_⟩
        obtain ⟨j, -, hj⟩ := Option.map_eq_some_iff.1 h
        have := q.isLt
        omega
    · rw [kept_val, parent_kept, shifted_val]
      refine ⟨fun h => absurd h (mem_children_shifted_kept q c), fun h => ?_⟩
      have := he.parent_lt h
      have := c.isLt
      omega
    · rw [shifted_val c, mem_children_shifted_shifted, hc.mem_children_iff, parent_shifted,
        shifted_val]
      by_cases hcr : c = child.root
      · rw [if_pos hcr, hcr, hc.parent_root]
        refine ⟨nofun, fun h => ?_⟩
        have := Option.some.inj h
        have := p.isLt
        omega
      · rw [if_neg hcr, Nat.add_comm e.size]
        refine ⟨fun h => by rw [h, Option.map_some], fun h => ?_⟩
        obtain ⟨j, hj, hjq⟩ := Option.map_eq_some_iff.1 h
        rw [hj, Nat.add_right_cancel hjq]
  nodup_children r := by
    obtain ⟨q, rfl⟩ | ⟨q, rfl⟩ := exists_kept_or_shifted r
    · rw [node_children_kept]
      split
      · refine List.nodup_append.2 ⟨he.nodup_children q, List.nodup_singleton _, ?_⟩
        intro i hi j hj
        have := he.lt_size hi
        have := List.mem_singleton.1 hj
        omega
      · exact he.nodup_children q
    · rw [node_children_shifted]
      exact (hc.nodup_children q).map fun _ _ => Nat.add_right_cancel

end Graft

end Linked

mutual

theorem linked_ofTree : ∀ t : Tree, (ofTree t).Linked
  | .node label children => (linked_single label).graftTrees children

theorem Linked.graftTrees {e : Expression} (he : e.Linked) :
    ∀ ts : List Tree, (e.graftTrees ts).Linked
  | [] => he
  | t :: ts => Linked.graftTrees (he.graft (linked_ofTree t) e.root) ts

end

/-! ## Children and contexts -/

/-- A property which each node has if its children have it holds of every node. -/
theorem induction_on_children {e : Expression} {P : e.Place → Prop}
    (step : ∀ p, (∀ c ∈ e.children p, P c) → P p) (p : e.Place) : P p :=
  step p fun c _ => induction_on_children step c
termination_by e.size - p.val
decreasing_by
  have := lt_of_mem_children ‹c ∈ e.children p›
  have := c.isLt
  omega

namespace Linked

variable {e : Expression}

theorem map_val_children (he : e.Linked) (p : e.Place) :
    (e.children p).map Fin.val = (e.node p).children := by
  have hall : ∀ i ∈ (e.node p).children, (e.childAt? p i).map Fin.val = some i := by
    intro i hi
    obtain ⟨hlt, hsize⟩ := he.exists_child p i hi
    have hchild : e.childAt? p i = some ⟨i, hsize⟩ := childAt?_eq_some_iff.2 ⟨hlt, rfl⟩
    rw [hchild, Option.map_some]
  rw [children, List.map_filterMap]
  exact (List.filterMap_congr hall).trans List.filterMap_some

theorem mem_children (he : e.Linked) {p c : e.Place} :
    c ∈ e.children p ↔ (e.node c).parent = some p.val := by
  rw [← he.mem_children_iff, ← he.map_val_children, List.mem_map]
  exact ⟨fun h => ⟨c, h, rfl⟩, fun ⟨d, hd, hdc⟩ => Fin.ext hdc ▸ hd⟩

theorem context_root (he : e.Linked) : e.context e.root = none := by
  rw [context, parent?, he.parent_root]
  rfl

theorem context_of_mem (he : e.Linked) {p c : e.Place} (h : c ∈ e.children p) :
    e.context c = some (e.label p) := by
  rw [context, parent?, he.mem_children.1 h, Option.bind_some, place?_eq_some_iff.2 rfl,
    Option.map_some]

end Linked

end Ordinate.Expression

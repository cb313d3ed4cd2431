import Ordinate.Proofs.Derivative.Slope
import Ordinate.Proofs.Tree.Steady

/-!
# Trees without gaps

* `Tree.Ruled` : there is a rule for every node, which is to say no leaf without meaning and no
  power of two operands which both vary;
* `Tree.gaps_applied_eq_empty_iff` : a tree is differentiated without a gap exactly if there is,
  although of some powers only one operand is looked into;
* `Expression.Varies` : the variable or a leaf without meaning stands from a node down;
* `Expression.Linked.gaps_eq_empty_iff` : the same of the nodes of an expression.
-/

namespace Ordinate

namespace Tree

theorem hasFixedValue_iff_everywhere {t : Tree} :
    t.hasFixedValue ↔
      t.Everywhere fun label _ => label ≠ .var ∧ ∀ text, label ≠ .unknown text := by
  induction t with
  | node label children ih =>
    rw [everywhere_node]
    constructor
    · intro h
      have hvar : label ≠ .var := by
        rintro rfl
        cases h
      have hunknown : ∀ text, label ≠ .unknown text := by
        rintro text rfl
        cases h
      rw [hasFixedValue_node hvar hunknown, List.all_eq_true] at h
      exact ⟨⟨hvar, hunknown⟩, fun t ht => (ih t ht).1 (h t ht)⟩
    · rintro ⟨⟨hvar, hunknown⟩, h⟩
      rw [hasFixedValue_node hvar hunknown, List.all_eq_true]
      exact fun t ht => (ih t ht).2 (h t ht)

/-- There is a rule for every node: no leaf without meaning, and no power of two operands which
both vary. -/
def Ruled (t : Tree) : Prop :=
  t.Everywhere fun label children => (∀ text, label ≠ .unknown text) ∧
    (label = .binary .power → ∀ g h, children = [g, h] → g.hasFixedValue ∨ h.hasFixedValue)

theorem ruled_of_hasFixedValue {t : Tree} (h : t.hasFixedValue) : t.Ruled := by
  induction t with
  | node label children ih =>
    obtain ⟨⟨hvar, hunknown⟩, hbelow⟩ := everywhere_node.1 (hasFixedValue_iff_everywhere.1 h)
    have hfixed : ∀ t ∈ children, t.hasFixedValue := fun t ht =>
      hasFixedValue_iff_everywhere.2 (hbelow t ht)
    refine .node ⟨hunknown, ?_⟩ fun t ht => ih t ht (hfixed t ht)
    rintro - g h rfl
    exact .inl (hfixed g (by simp))

@[simp] theorem ruled_leaf {label : Label} :
    (leaf label).Ruled ↔ ∀ text, label ≠ .unknown text := by
  rw [leaf, Ruled, everywhere_node]
  simp

theorem ruled_unary {label : Label} (hlabel : label = .log ∨ label = .group) {t : Tree} :
    (unary label t).Ruled ↔ t.Ruled := by
  rw [unary, Ruled, everywhere_node, List.forall_mem_singleton]
  refine and_iff_right ⟨fun text hunknown => ?_, fun hpower => ?_⟩
  · rcases hlabel with rfl | rfl <;> cases hunknown
  · rcases hlabel with rfl | rfl <;> cases hpower

@[simp] theorem ruled_log {t : Tree} : (unary .log t).Ruled ↔ t.Ruled :=
  ruled_unary (.inl rfl)

@[simp] theorem ruled_group {t : Tree} : (unary .group t).Ruled ↔ t.Ruled :=
  ruled_unary (.inr rfl)

@[simp] theorem ruled_binary {op : Operator} {t u : Tree} :
    (binary op t u).Ruled ↔
      (op = .power → t.hasFixedValue ∨ u.hasFixedValue) ∧ t.Ruled ∧ u.Ruled := by
  rw [binary, Ruled, everywhere_node]
  simp [Ruled]

@[simp] theorem ruled_keepUnder {parent : Label} {t : Tree} :
    (t.keepUnder parent).Ruled ↔ t.Ruled := by
  unfold keepUnder
  split
  · exact ruled_group
  · rfl

@[simp] theorem ruled_operation {op : Operator} {t u : Tree} :
    (operation op t u).Ruled ↔
      (op = .power → t.hasFixedValue ∨ u.hasFixedValue) ∧ t.Ruled ∧ u.Ruled := by
  simp [operation]

theorem under_eq_power_iff {op : Operator} {context : Option Label} :
    op.under context = .power ↔ op = .power := by
  unfold Operator.under
  split <;> simp

theorem ruled_applied {t : Tree} (ht : t.Saturated) :
    ∀ context, (t.applied context).Ruled ↔ t.Ruled := by
  refine ht.shapes ?leaf ?log ?group ?binary
  case leaf =>
    intro label _ context
    rw [applied_leaf]
  case log =>
    intro t _ ih context
    exact ruled_log.trans ((ih _).trans ruled_log.symm)
  case group =>
    intro t _ ih context
    exact ruled_group.trans ((ih _).trans ruled_group.symm)
  case binary =>
    intro op t u _ _ iht ihu context
    rw [applied_binary, ruled_operation, ruled_binary, iht, ihu, under_eq_power_iff,
      hasFixedValue_applied, hasFixedValue_applied]

/-! ## Gaps -/

/-- A tree is differentiated without a gap exactly if there is a rule for every node. -/
theorem gaps_applied_eq_empty_iff {t : Tree} (ht : t.Saturated) :
    ∀ context, (t.applied context).gaps = #[] ↔ t.Ruled := by
  refine ht.shapes ?leaf ?log ?group ?binary
  case leaf =>
    intro label harity context
    rw [applied_leaf, ruled_leaf]
    match label, harity with
    | .var, _ | .literal _, _ => exact iff_of_true rfl fun _ => nofun
    | .unknown text, _ => exact iff_of_false nofun fun h => h text rfl
  case log =>
    intro t _ ih context
    rw [gaps_applied_unary (.inl rfl), ih, ruled_log]
  case group =>
    intro t _ ih context
    rw [gaps_applied_unary (.inr rfl), ih, ruled_group]
  case binary =>
    intro op t u _ _ iht ihu context
    have hleft : t.hasFixedValue → (t.applied (some (.binary op))).gaps = #[] := fun h =>
      (iht _).2 (ruled_of_hasFixedValue h)
    have hright : u.hasFixedValue → (u.applied (some (.binary op))).gaps = #[] := fun h =>
      (ihu _).2 (ruled_of_hasFixedValue h)
    rw [gaps_applied, ruled_binary, operationGaps_eq_empty_iff hleft hright, iht, ihu,
      under_eq_power_iff]
    exact and_rotate.symm

end Tree

/-! ## Nodes in place -/

namespace Expression

/-- The variable or a leaf without meaning stands from the node `p` down. -/
def Varies (e : Expression) (p : e.Place) : Prop :=
  ∃ q, e.Below p q ∧ (e.label q = .var ∨ ∃ text, e.label q = .unknown text)

variable {e : Expression}

theorem hasFixedValue_subtree_iff {p : e.Place} :
    (e.subtree p).hasFixedValue ↔ ¬e.Varies p := by
  rw [Tree.hasFixedValue_iff_everywhere, everywhere_subtree_iff, Varies]
  simp only [not_exists, not_and, not_or]

theorem ruled_subtree_iff {p : e.Place} :
    (e.subtree p).Ruled ↔
      (∀ q text, e.Below p q → e.label q ≠ .unknown text) ∧
      ∀ q l r, e.Below p q → e.label q = .binary .power → e.children q = [l, r] →
        ¬(e.Varies l ∧ e.Varies r) := by
  rw [Tree.Ruled, everywhere_subtree_iff]
  constructor
  · intro h
    refine ⟨fun q text hq => (h q hq).1 text, fun q l r hq hlabel hchildren => ?_⟩
    have hfixed := (h q hq).2 hlabel (e.subtree l) (e.subtree r) (by rw [hchildren]; rfl)
    rwa [hasFixedValue_subtree_iff, hasFixedValue_subtree_iff, ← not_and_or] at hfixed
  · rintro ⟨hunknown, hpower⟩ q hq
    refine ⟨fun text => hunknown q text hq, fun hlabel g h hchildren => ?_⟩
    have hlen : (e.children q).length = 2 := by
      rw [← List.length_map e.subtree, hchildren]
      rfl
    obtain ⟨l, r, hlr⟩ := List.length_eq_two.1 hlen
    rw [hlr] at hchildren
    cases hchildren
    rw [hasFixedValue_subtree_iff, hasFixedValue_subtree_iff, ← not_and_or]
    exact hpower q l r hq hlabel hlr

theorem Linked.gaps_eq_empty_iff (he : e.Linked) (hs : e.Saturated) (p : e.Place) :
    e.gaps p = #[] ↔ (e.subtree p).Ruled :=
  Tree.gaps_applied_eq_empty_iff (he.saturated_subtree hs p) _

theorem derivativeWith_eq (p : e.Place) (r : GapRecord) :
    e.derivativeWith p r = (ofTree (e.slope p), r.noteAll (e.gaps p)) := by
  show (ofTree (Tree.derivative _ r).1, (Tree.derivative _ r).2) = _
  rw [Tree.derivative_eq]
  rfl

theorem derivativeWith_keeps_iff {p : e.Place} {r : GapRecord} :
    (e.derivativeWith p r).2 = r ↔ e.gaps p = #[] := by
  rw [derivativeWith_eq]
  constructor
  · intro h
    have hsize := congrArg (fun r : GapRecord => r.gaps.size) h
    rw [GapRecord.gaps_noteAll, Array.size_append] at hsize
    exact Array.eq_empty_of_size_eq_zero (by omega)
  · intro h
    rw [h, GapRecord.noteAll_empty]

end Expression

end Ordinate

import Ordinate.Derivative.InPlace
import Ordinate.Proofs.Tree.Value

/-!
# Derivatives and their gaps

* `Tree.slope`, `Tree.gaps` : the derivative of a tree by itself, and the gaps met on the way;
* `Tree.derivative_eq` : a differentiation adds its gaps behind those of the record it is given,
  and takes nothing from it;
* `Arithmetic.slopeRule` : the value of an operation's derivative from the values of its operands
  and of their derivatives;
* `Tree.value_slope_applied` : the derivative of an operation in its context has that value, with
  the values and the derivatives which the operands have in theirs;
* `Expression.slope`, `Expression.gaps` : the derivative of a node where it stands, and its gaps;
* `Expression.Linked.value_slope_binary` and its siblings : what that derivative is worth, from the
  values and the derivatives of the operands where they stand.
-/

namespace Ordinate

universe u

/-! ## Records -/

/-- The record with further gaps, noted one after the other. -/
def GapRecord.noteAll (r : GapRecord) (gaps : Array Gap) : GapRecord :=
  gaps.foldl note r

namespace GapRecord

@[simp] theorem noteAll_empty (r : GapRecord) : r.noteAll #[] = r := rfl

@[simp] theorem noteAll_append (r : GapRecord) (a b : Array Gap) :
    r.noteAll (a ++ b) = (r.noteAll a).noteAll b := by
  simp [noteAll]

/-- Each gap has one entry in the journal, and these are in the same order. -/
theorem noteAll_eq (r : GapRecord) (gaps : Array Gap) :
    r.noteAll gaps = ⟨r.gaps ++ gaps, r.journal ++ gaps.map Gap.entry⟩ := by
  obtain ⟨gaps⟩ := gaps
  induction gaps generalizing r with
  | nil => simp [noteAll]
  | cons g gaps ih =>
    have hcons : r.noteAll ⟨g :: gaps⟩ = (r.note g).noteAll ⟨gaps⟩ := by simp [noteAll]
    rw [hcons, ih, note]
    simp

@[simp] theorem gaps_noteAll (r : GapRecord) (gaps : Array Gap) :
    (r.noteAll gaps).gaps = r.gaps ++ gaps := by
  rw [noteAll_eq]

end GapRecord

/-- The step only notes gaps in the record it is given. -/
def Notes {β : Type u} (step : GapRecord → β × GapRecord) : Prop :=
  ∀ r, step r = ((step {}).1, r.noteAll (step {}).2.gaps)

namespace Tree

def slope (t : Tree) : Tree :=
  (t.derivative {}).1

def gaps (t : Tree) : Array Gap :=
  (t.derivative {}).2.gaps

theorem notes_pure (t : Tree) : Notes (pure t : StateM GapRecord Tree) := fun _ => rfl

theorem notes_zeroFor (g : Gap) : Notes (zeroFor g) := fun _ => rfl

theorem notes_bind {m : StateM GapRecord Tree} {f : Tree → StateM GapRecord Tree}
    (hm : Notes m) (hf : ∀ t, Notes (f t)) : Notes (m >>= f) := fun r => by
  show f (m r).1 (m r).2 =
    ((f (m {}).1 (m {}).2).1, r.noteAll (f (m {}).1 (m {}).2).2.gaps)
  rw [hm r, hf _ (r.noteAll (m {}).2.gaps), hf _ (m {}).2]
  simp

/-- A differentiation adds its gaps behind those of the record it is given. -/
theorem notes_derivative (t : Tree) : Notes t.derivative := by
  fun_induction derivative t with
  | case1 | case2 => exact notes_pure _
  | case3 => exact notes_zeroFor _
  | case4 g h ihg ihh | case5 g h ihg ihh | case6 g h ihg ihh | case7 g h ihg ihh =>
    exact notes_bind ihg fun _ => notes_bind ihh fun _ => notes_pure _
  | case8 => exact notes_pure _
  | case9 g h _ _ ihh => exact notes_bind ihh fun _ => notes_pure _
  | case10 g h _ _ ihg => exact notes_bind ihg fun _ => notes_pure _
  | case11 => exact notes_zeroFor _
  | case12 g ihg | case13 g ihg => exact notes_bind ihg fun _ => notes_pure _
  | case14 => exact notes_zeroFor _

theorem derivative_eq (t : Tree) (r : GapRecord) :
    t.derivative r = (t.slope, r.noteAll t.gaps) :=
  notes_derivative t r

/-! ## Gaps and derivatives of operations -/

/-- The derivative of an operation from its operands and their derivatives. -/
def operationSlope (op : Operator) (g h g' h' : Tree) : Tree :=
  match op with
  | .add => operation .add g' h'
  | .subtract => operation .subtract g' h'
  | .multiply => productRule g h g' h'
  | .divide => quotientRule g h g' h'
  | .power =>
    match g.hasFixedValue, h.hasFixedValue with
    | true, true => number "0"
    | true, false => exponentRule g h h'
    | false, true => baseRule g h g'
    | false, false => number "0"

/-- The gaps of an operation from those of its operands: a power looks only into an operand which
is not fixed, and not at all if neither is. -/
def operationGaps (op : Operator) (fixedLeft fixedRight : Bool) (left right : Array Gap) :
    Array Gap :=
  match op with
  | .add | .subtract | .multiply | .divide => left ++ right
  | .power =>
    match fixedLeft, fixedRight with
    | true, true => #[]
    | true, false => right
    | false, true => left
    | false, false => #[.varyingPower]

theorem bind_derivative (g : Tree) (f : Tree → Tree) :
    (g.derivative >>= fun g' => pure (f g')) {} = (f g.slope, .noteAll {} g.gaps) := by
  show (f (g.derivative {}).1, (g.derivative {}).2) = _
  rw [derivative_eq]

theorem bind_derivative_derivative (g h : Tree) (f : Tree → Tree → Tree) :
    (g.derivative >>= fun g' => h.derivative >>= fun h' => pure (f g' h')) {} =
      (f g.slope h.slope, .noteAll {} (g.gaps ++ h.gaps)) := by
  show (f (g.derivative {}).1 (h.derivative (g.derivative {}).2).1,
    (h.derivative (g.derivative {}).2).2) = _
  rw [derivative_eq g, derivative_eq h, GapRecord.noteAll_append]

theorem derivative_binary (op : Operator) (g h : Tree) :
    (binary op g h).derivative {} =
      (operationSlope op g h g.slope h.slope,
        .noteAll {} (operationGaps op g.hasFixedValue h.hasFixedValue g.gaps h.gaps)) := by
  cases op with
  | add | subtract | multiply | divide =>
    rw [binary, derivative]
    exact bind_derivative_derivative g h _
  | power =>
    rw [binary, derivative]
    unfold operationSlope operationGaps
    cases g.hasFixedValue with
    | true =>
      cases h.hasFixedValue with
      | true => rfl
      | false => exact bind_derivative h _
    | false =>
      cases h.hasFixedValue with
      | true => exact bind_derivative g _
      | false => rfl

theorem slope_binary (op : Operator) (g h : Tree) :
    (binary op g h).slope = operationSlope op g h g.slope h.slope :=
  congrArg Prod.fst (derivative_binary op g h)

theorem gaps_binary (op : Operator) (g h : Tree) :
    (binary op g h).gaps =
      operationGaps op g.hasFixedValue h.hasFixedValue g.gaps h.gaps := by
  rw [gaps, derivative_binary]
  simp

theorem slope_log (g : Tree) : (unary .log g).slope = logRule g g.slope := by
  rw [slope, unary, derivative]
  rfl

theorem gaps_log (g : Tree) : (unary .log g).gaps = g.gaps := by
  rw [gaps, unary, derivative]
  rfl

theorem slope_group (g : Tree) : (unary .group g).slope = unary .group g.slope := by
  rw [slope, unary, derivative]
  rfl

theorem gaps_group (g : Tree) : (unary .group g).gaps = g.gaps := by
  rw [gaps, unary, derivative]
  rfl

@[simp] theorem gaps_keepUnder (parent : Label) (t : Tree) :
    (t.keepUnder parent).gaps = t.gaps := by
  unfold keepUnder
  split
  · exact gaps_group t
  · rfl

theorem gaps_operation (op : Operator) (g h : Tree) :
    (operation op g h).gaps =
      operationGaps op g.hasFixedValue h.hasFixedValue g.gaps h.gaps := by
  rw [operation, gaps_binary]
  simp

end Tree

/-! ## Values of derivatives -/

/-- The value of the derivative of an operation whose operands are worth `l` and `r`, and their
derivatives `dl` and `dr`. -/
def Arithmetic.slopeRule {α : Type u} (A : Arithmetic α) (op : Operator)
    (fixedLeft fixedRight : Bool) (l r dl dr : α) : α :=
  match op with
  | .add => A.add dl dr
  | .subtract => A.subtract dl dr
  | .multiply => A.add (A.multiply dl r) (A.multiply l dr)
  | .divide =>
    A.divide (A.subtract (A.multiply dl r) (A.multiply l dr)) (A.power r (A.literal "2"))
  | .power =>
    match fixedLeft, fixedRight with
    | true, true => A.literal "0"
    | true, false => A.multiply (A.multiply dr (A.power l r)) (A.log l)
    | false, true =>
      A.multiply (A.multiply dl (A.power l (A.subtract r (A.literal "1")))) r
    | false, false => A.literal "0"

namespace Tree

variable {α : Type u} (A : Arithmetic α) (x : α)

theorem value_operationSlope (op : Operator) (g h g' h' : Tree) :
    (operationSlope op g h g' h').value A x none =
      A.slopeRule op g.hasFixedValue h.hasFixedValue (g.value A x none) (h.value A x none)
        (g'.value A x none) (h'.value A x none) := by
  cases op with
  | add | subtract => exact value_operation A x none _ g' h'
  | multiply =>
    rw [operationSlope, productRule, value_operation, value_operation, value_operation]
    rfl
  | divide =>
    rw [operationSlope, quotientRule, value_operation, value_operation, value_operation,
      value_operation, value_operation]
    rfl
  | power =>
    unfold operationSlope Arithmetic.slopeRule
    cases g.hasFixedValue with
    | true =>
      cases h.hasFixedValue with
      | true => rfl
      | false =>
        show (exponentRule g h h').value A x none = _
        rw [exponentRule, value_operation, value_operation, value_operation, value_log]
        rfl
    | false =>
      cases h.hasFixedValue with
      | true =>
        show (baseRule g h g').value A x none = _
        rw [baseRule, value_operation, value_operation, value_operation, value_operation]
        rfl
      | false => rfl

@[simp] theorem value_slope_keepUnder (parent : Label) (t : Tree) :
    (t.keepUnder parent).slope.value A x none = t.slope.value A x none := by
  unfold keepUnder
  split
  · rw [slope_group, value_group]
  · rfl

theorem value_slope_operation (op : Operator) (g h : Tree) :
    (operation op g h).slope.value A x none =
      A.slopeRule op g.hasFixedValue h.hasFixedValue (g.value A x none) (h.value A x none)
        (g.slope.value A x none) (h.slope.value A x none) := by
  rw [operation, slope_binary, value_operationSlope]
  simp only [hasFixedValue_keepUnder, value_keepUnder_none, value_slope_keepUnder]

/-- The derivative of an operation in its context, from its operands in theirs. -/
theorem value_slope_applied (context : Option Label) (op : Operator) (g h : Tree) :
    ((binary op g h).applied context).slope.value A x none =
      A.slopeRule (op.under context) g.hasFixedValue h.hasFixedValue
        (g.value A x (some (.binary op))) (h.value A x (some (.binary op)))
        ((g.applied (some (.binary op))).slope.value A x none)
        ((h.applied (some (.binary op))).slope.value A x none) := by
  rw [applied_binary, value_slope_operation]
  simp only [hasFixedValue_applied, value_applied]

theorem gaps_applied (context : Option Label) (op : Operator) (g h : Tree) :
    ((binary op g h).applied context).gaps =
      operationGaps (op.under context) g.hasFixedValue h.hasFixedValue
        (g.applied (some (.binary op))).gaps (h.applied (some (.binary op))).gaps := by
  rw [applied_binary, gaps_operation]
  simp only [hasFixedValue_applied]

theorem gaps_applied_unary {label : Label} (hlabel : label = .log ∨ label = .group)
    (context : Option Label) (g : Tree) :
    ((unary label g).applied context).gaps = (g.applied (some label)).gaps := by
  rcases hlabel with rfl | rfl
  · exact gaps_log _
  · exact gaps_group _

/-- Where no operand with a fixed value has a gap, an operation has none exactly if neither operand
has, and it is no power of two operands that vary. -/
theorem operationGaps_eq_empty_iff {op : Operator} {fixedLeft fixedRight : Bool}
    {left right : Array Gap} (hleft : fixedLeft → left = #[]) (hright : fixedRight → right = #[]) :
    operationGaps op fixedLeft fixedRight left right = #[] ↔
      left = #[] ∧ right = #[] ∧ (op = .power → fixedLeft ∨ fixedRight) := by
  match op, fixedLeft, fixedRight with
  | .add, _, _ | .subtract, _, _ | .multiply, _, _ | .divide, _, _ =>
    refine Array.append_eq_empty_iff.trans (and_congr_right fun _ => ?_)
    exact (and_iff_left nofun).symm
  | .power, true, true => exact iff_of_true rfl ⟨hleft rfl, hright rfl, fun _ => .inl rfl⟩
  | .power, true, false => exact ⟨fun h => ⟨hleft rfl, h, fun _ => .inl rfl⟩, fun h => h.2.1⟩
  | .power, false, true => exact ⟨fun h => ⟨h, hright rfl, fun _ => .inr rfl⟩, fun h => h.1⟩
  | .power, false, false => exact iff_of_false nofun fun h => by simpa using h.2.2 rfl

theorem value_slope_log (context : Option Label) (g : Tree) :
    ((unary .log g).applied context).slope.value A x none =
      A.divide ((g.applied (some .log)).slope.value A x none) (g.value A x none) := by
  show (unary .log (g.applied (some .log))).slope.value A x none = _
  rw [slope_log, logRule, value_operation, value_applied, Operator.under_none]
  exact congrArg _ (value_eq_of_not_changesUnder A x (changesUnder_eq_false (by decide)))

theorem value_slope_group (context : Option Label) (g : Tree) :
    ((unary .group g).applied context).slope.value A x none =
      (g.applied (some .group)).slope.value A x none := by
  show (unary .group (g.applied (some .group))).slope.value A x none = _
  rw [slope_group, value_group]

end Tree

/-! ## Nodes in place -/

namespace Expression

variable {e : Expression}

/-- The derivative of a node, where it stands, of which `Expression.derivative` is the layout. -/
def slope (e : Expression) (p : e.Place) : Tree :=
  ((e.subtree p).applied (e.context p)).slope

def gaps (e : Expression) (p : e.Place) : Array Gap :=
  ((e.subtree p).applied (e.context p)).gaps

variable {α : Type u} (A : Arithmetic α) (x : α)

theorem evaluate_derivative (p : e.Place) :
    (e.derivative p).evaluate A x (e.derivative p).root = (e.slope p).value A x none :=
  evaluate_ofTree A x (e.slope p)

/-- The derivative of an operation where it stands, from its operands where they stand. -/
theorem Linked.value_slope_binary (he : e.Linked) {p l r : e.Place} {op : Operator}
    (hlabel : e.label p = .binary op) (hchildren : e.children p = [l, r]) :
    (e.slope p).value A x none =
      A.slopeRule (op.under (e.context p)) (e.subtree l).hasFixedValue (e.subtree r).hasFixedValue
        (e.evaluate A x l) (e.evaluate A x r) ((e.slope l).value A x none)
        ((e.slope r).value A x none) := by
  obtain ⟨hleft, hright⟩ := he.context_operands hlabel hchildren
  rw [slope, subtree_binary hlabel hchildren, Tree.value_slope_applied, slope, slope,
    he.evaluate_eq_value, he.evaluate_eq_value, hleft, hright]

theorem Linked.value_slope_log (he : e.Linked) {p g : e.Place} (hlabel : e.label p = .log)
    (hchildren : e.children p = [g]) :
    (e.slope p).value A x none =
      A.divide ((e.slope g).value A x none) (e.evaluate A x g) := by
  have hcontext := he.context_operand hlabel hchildren
  have hoperand : (e.subtree g).value A x (some .log) = (e.subtree g).value A x none :=
    Tree.value_eq_of_not_changesUnder A x (Tree.changesUnder_eq_false (by decide))
  rw [slope, subtree_unary hlabel hchildren, Tree.value_slope_log, slope, he.evaluate_eq_value,
    hcontext, hoperand]

theorem Linked.value_slope_group (he : e.Linked) {p g : e.Place} (hlabel : e.label p = .group)
    (hchildren : e.children p = [g]) :
    (e.slope p).value A x none = (e.slope g).value A x none := by
  rw [slope, subtree_unary hlabel hchildren, Tree.value_slope_group, slope,
    he.context_operand hlabel hchildren]

end Expression

end Ordinate

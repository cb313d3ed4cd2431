import Ordinate.Proofs.Derivative.Orders

/-!
# Derivatives under an operator

In a derivative every operand is in parentheses where it would change its meaning. The root of a
derivative has no parent and so no parentheses: an operator above it may change it.

* `Expression.leftRoot`, `Expression.rightRoot` : the places of the operands' roots below an
  operator, and `Expression.evaluate_operandRoots` what they are worth there;
* `Tree.changesUnder_slope_iff` : the operations whose derivative an operator above it changes;
* `Expression.UnguardedUnder` : the same of the nodes of an expression;
* `Expression.evaluate_attached_derivative` : everywhere else a derivative is worth the same below
  an operator as alone, and there it is worth what the changed operator gives.
-/

namespace Ordinate

universe u

/-! ## Roots of derivatives -/

/-- The operator at the root of an operation's derivative, if there is one. -/
def Operator.slope? (op : Operator) (fixedLeft fixedRight : Bool) : Option Operator :=
  match op with
  | .add | .multiply => some .add
  | .subtract => some .subtract
  | .divide => some .divide
  | .power => if fixedLeft = fixedRight then none else some .multiply

namespace Tree

theorem operator?_operationSlope (op : Operator) (g h g' h' : Tree) :
    (operationSlope op g h g' h').label.operator? =
      op.slope? g.hasFixedValue h.hasFixedValue := by
  cases op with
  | add | subtract | multiply | divide => rfl
  | power =>
    unfold operationSlope Operator.slope?
    cases g.hasFixedValue <;> cases h.hasFixedValue <;> rfl

/-- A `-` changes the derivatives of sums, differences and products, which are sums and differences,
and a `/` those of powers with one fixed operand, which are products. -/
theorem changesUnder_operationSlope_iff {op p : Operator} {g h g' h' : Tree} :
    (operationSlope op g h g' h').label.changesUnder (.binary p) ↔
      (p = .subtract ∧ op ∈ [.add, .subtract, .multiply]) ∨
        (p = .divide ∧ op = .power ∧ g.hasFixedValue ≠ h.hasFixedValue) := by
  rw [Label.changesUnder, operator?_operationSlope]
  generalize g.hasFixedValue = fixedLeft
  generalize h.hasFixedValue = fixedRight
  revert fixedLeft fixedRight
  cases op <;> cases p <;> decide

theorem changesUnder_slope_of_ne_binary {t : Tree} (ht : t.Saturated)
    (hop : ∀ op, t.label ≠ .binary op) (context : Option Label) (p : Operator) :
    (t.applied context).slope.label.changesUnder (.binary p) = false := by
  revert hop
  refine ht.shapes ?leaf ?log ?group ?binary
  case leaf =>
    intro label harity _
    rw [applied_leaf]
    match label, harity with
    | .var, _ | .literal _, _ | .unknown _, _ => rfl
  case log =>
    intro t _ _ _
    show (unary .log (t.applied (some .log))).slope.label.changesUnder (.binary p) = false
    rw [slope_log]
    cases p <;> rfl
  case group =>
    intro t _ _ _
    show (unary .group (t.applied (some .group))).slope.label.changesUnder (.binary p) = false
    rw [slope_group]
    rfl
  case binary =>
    intro op t u _ _ _ _ hop
    exact absurd rfl (hop op)

theorem changesUnder_slope_iff {t : Tree} (ht : t.Saturated) (context : Option Label)
    (p : Operator) :
    (t.applied context).slope.label.changesUnder (.binary p) ↔
      ∃ op g h, t = binary op g h ∧
        ((p = .subtract ∧ op.under context ∈ [.add, .subtract, .multiply]) ∨
          (p = .divide ∧ op = .power ∧ g.hasFixedValue ≠ h.hasFixedValue)) := by
  have hbinary : ∀ op g h, ((binary op g h).applied context).slope.label.changesUnder (.binary p) ↔
      (p = .subtract ∧ op.under context ∈ [.add, .subtract, .multiply]) ∨
        (p = .divide ∧ op = .power ∧ g.hasFixedValue ≠ h.hasFixedValue) := by
    intro op g h
    rw [applied_binary, operation, slope_binary, changesUnder_operationSlope_iff,
      under_eq_power_iff]
    simp only [hasFixedValue_keepUnder, hasFixedValue_applied]
  by_cases hop : ∃ op, t.label = .binary op
  · obtain ⟨op, hop⟩ := hop
    obtain ⟨label, children⟩ := t
    obtain ⟨hlen, -⟩ := ht
    cases hop
    obtain ⟨g, h, rfl⟩ := List.length_eq_two.1 hlen
    refine (hbinary op g h).trans ⟨fun hchanges => ⟨op, g, h, rfl, hchanges⟩, ?_⟩
    rintro ⟨_, _, _, heq, hchanges⟩
    cases heq
    exact hchanges
  · rw [changesUnder_slope_of_ne_binary ht (fun op h => hop ⟨op, h⟩)]
    refine iff_of_false Bool.false_ne_true ?_
    rintro ⟨op, g, h, rfl, -⟩
    exact hop ⟨op, rfl⟩

end Tree

namespace Expression

/-! ## Operands below an operator -/

theorem label_root_graftAtRoot (e child : Expression) :
    (e.graftAtRoot child).label (e.graftAtRoot child).root = e.label e.root :=
  label_kept e.root

theorem node_children_root_graftAtRoot (e child : Expression) :
    ((e.graftAtRoot child).node (e.graftAtRoot child).root).children =
      (e.node e.root).children ++ [e.size] :=
  (node_children_kept e.root).trans (if_pos rfl)

section Operands

variable (op : Operator) (left right : Expression)

theorem size_binary : (binary op left right).size = 1 + left.size + right.size := by
  rw [binary, graftAtRoot, size_graft, graftAtRoot, size_graft, size_single]

def leftRoot : (binary op left right).Place :=
  ⟨1, by
    have := left.size_pos
    rw [size_binary]
    omega⟩

def rightRoot : (binary op left right).Place :=
  ⟨1 + left.size, by
    have := right.size_pos
    rw [size_binary]
    omega⟩

theorem label_root_binary :
    (binary op left right).label (binary op left right).root = .binary op := by
  rw [binary, label_root_graftAtRoot, label_root_graftAtRoot]
  rfl

variable {left right} (hl : left.Linked) (hr : right.Linked)

include hl hr

theorem linked_binary : (binary op left right).Linked :=
  ((linked_single _).graft hl _).graft hr _

theorem children_root_binary : (binary op left right).children (binary op left right).root =
    [leftRoot op left right, rightRoot op left right] := by
  apply eq_of_map_val
  rw [(linked_binary op hl hr).map_val_children]
  show ((binary op left right).node (binary op left right).root).children = [1, 1 + left.size]
  rw [binary, node_children_root_graftAtRoot, node_children_root_graftAtRoot, graftAtRoot,
    size_graft]
  rfl

theorem context_operandRoots :
    (binary op left right).context (leftRoot op left right) = some (.binary op) ∧
      (binary op left right).context (rightRoot op left right) = some (.binary op) := by
  have he := linked_binary op hl hr
  rw [← label_root_binary op left right]
  constructor <;>
    exact he.context_of_mem (by simp [children_root_binary op hl hr])

theorem subtree_operandRoots :
    (binary op left right).subtree (leftRoot op left right) = left.toTree ∧
      (binary op left right).subtree (rightRoot op left right) = right.toTree := by
  have hroot : (binary op left right).toTree = .node (.binary op)
      [(binary op left right).subtree (leftRoot op left right),
        (binary op left right).subtree (rightRoot op left right)] := by
    rw [toTree, subtree_eq, label_root_binary, children_root_binary op hl hr]
    rfl
  have htree : (binary op left right).toTree = .node (.binary op) [left.toTree, right.toTree] := by
    have hsingle := linked_single (.binary op)
    have hfirst : ((single (.binary op)).graftAtRoot left).Linked := hsingle.graft hl _
    rw [binary, toTree_graftAtRoot hfirst hr, toTree_graftAtRoot hsingle hl, toTree_single]
    rfl
  obtain ⟨-, hchildren⟩ := Tree.node.inj (hroot.symm.trans htree)
  obtain ⟨hleft, hrest⟩ := List.cons.inj hchildren
  exact ⟨hleft, (List.cons.inj hrest).1⟩

/-- Below an operator an operand is worth what its tree is worth under that operator. -/
theorem evaluate_operandRoots {α : Type u} (A : Arithmetic α) (x : α) :
    (binary op left right).evaluate A x (leftRoot op left right) =
        left.toTree.value A x (some (.binary op)) ∧
      (binary op left right).evaluate A x (rightRoot op left right) =
        right.toTree.value A x (some (.binary op)) := by
  have he := linked_binary op hl hr
  obtain ⟨hcl, hcr⟩ := context_operandRoots op hl hr
  obtain ⟨hsl, hsr⟩ := subtree_operandRoots op hl hr
  rw [he.evaluate_eq_value, he.evaluate_eq_value, hcl, hcr, hsl, hsr]
  exact ⟨rfl, rfl⟩

end Operands

/-! ## Roots which an operator changes -/

section Roots

variable {d e : Expression} (hd : d.Linked) (he : e.Linked) {p : Operator}

include hd he

/-- An operand which an operator does not change is worth below it what it is worth alone. -/
theorem evaluate_operandRoots_of_not_changesUnder
    (h : (d.label d.root).changesUnder (.binary p) = false) {α : Type u} (A : Arithmetic α) (x : α) :
    (binary p e d).evaluate A x (rightRoot p e d) = d.evaluate A x d.root ∧
      (binary p d e).evaluate A x (leftRoot p d e) = d.evaluate A x d.root := by
  have hkept : d.toTree.value A x (some (.binary p)) = d.evaluate A x d.root := by
    rw [hd.evaluate_eq_value, hd.context_root]
    exact Tree.value_eq_of_not_changesUnder A x (by rwa [toTree, label_subtree])
  rw [(evaluate_operandRoots p he hd A x).2, (evaluate_operandRoots p hd he A x).1]
  exact ⟨hkept, hkept⟩

/-- An operand which an operator changes is an operation, and applies below that operator another
one to the same values. -/
theorem evaluate_operandRoots_of_changesUnder (hs : d.Saturated)
    (h : (d.label d.root).changesUnder (.binary p)) :
    ∃ (op : Operator) (l r : d.Place), d.label d.root = .binary op ∧
      (d.node d.root).children = [l.val, r.val] ∧ op.under (some (.binary p)) ≠ op ∧
      ∀ (α : Type u) (A : Arithmetic α) (x : α),
        d.evaluate A x d.root = op.apply A (d.evaluate A x l) (d.evaluate A x r) ∧
        (binary p e d).evaluate A x (rightRoot p e d) =
          (op.under (some (.binary p))).apply A (d.evaluate A x l) (d.evaluate A x r) ∧
        (binary p d e).evaluate A x (leftRoot p d e) =
          (op.under (some (.binary p))).apply A (d.evaluate A x l) (d.evaluate A x r) := by
  obtain ⟨op, hlabel⟩ : ∃ op, d.label d.root = .binary op := by
    revert h
    cases d.label d.root with
    | binary op => exact fun _ => ⟨op, rfl⟩
    | log | group | var | literal | unknown => exact nofun
  have hlen := hd.length_children hs d.root
  rw [hlabel] at h hlen
  obtain ⟨l, r, hchildren⟩ := List.length_eq_two.1 hlen
  refine ⟨op, l, r, hlabel, hd.node_children_eq_iff.2 hchildren, of_decide_eq_true h,
    fun α A x => ?_⟩
  obtain ⟨hcontextl, hcontextr⟩ := hd.context_operands hlabel hchildren
  have hchanged : d.toTree.value A x (some (.binary p)) =
      (op.under (some (.binary p))).apply A (d.evaluate A x l) (d.evaluate A x r) := by
    rw [toTree, subtree_binary hlabel hchildren, Tree.value_binary, hd.evaluate_eq_value,
      hd.evaluate_eq_value, hcontextl, hcontextr]
  rw [(evaluate_operandRoots p he hd A x).2, (evaluate_operandRoots p hd he A x).1,
    evaluate_binary A x hlabel hchildren, hd.context_root, Operator.under_none]
  exact ⟨rfl, hchanged, hchanged⟩

end Roots

/-! ## Derivatives below an operator -/

/-- The derivative of the node at `q` is changed by the operator `p` above it: under `-` that of a
sum, a difference or a product, going by what the node applies, and under `/` that of a power of
which one operand varies and the other does not. -/
def UnguardedUnder (e : Expression) (p : Operator) (q : e.Place) : Prop :=
  ∃ (op : Operator) (l r : e.Place), e.label q = .binary op ∧
    (e.node q).children = [l.val, r.val] ∧
      ((p = .subtract ∧ op.under (e.context q) ∈ [.add, .subtract, .multiply]) ∨
        (p = .divide ∧ op = .power ∧ (e.Varies l ↔ ¬e.Varies r)))

variable {t e : Expression}

theorem hasFixedValue_ne_iff {l r : e.Place} :
    (e.subtree l).hasFixedValue ≠ (e.subtree r).hasFixedValue ↔ (e.Varies l ↔ ¬e.Varies r) := by
  rw [← hasFixedValue_subtree_iff, ← not_iff_not (a := e.Varies l), ← hasFixedValue_subtree_iff]
  cases (e.subtree l).hasFixedValue <;> cases (e.subtree r).hasFixedValue <;> simp

theorem Linked.changesUnder_slope_iff (he : e.Linked) (hs : e.Saturated) (p : Operator)
    (q : e.Place) : (e.slope q).label.changesUnder (.binary p) ↔ e.UnguardedUnder p q := by
  rw [slope, Tree.changesUnder_slope_iff (he.saturated_subtree hs q)]
  constructor
  · rintro ⟨op, g, h, hsubtree, hchanges⟩
    rw [subtree_eq] at hsubtree
    obtain ⟨hlabel, hchildren⟩ := Tree.node.inj hsubtree
    obtain ⟨l, r, hlr⟩ := List.length_eq_two.1
      ((List.length_map e.subtree).symm.trans (congrArg List.length hchildren))
    rw [hlr] at hchildren
    cases hchildren
    exact ⟨op, l, r, hlabel, he.node_children_eq_iff.2 hlr, by rwa [← hasFixedValue_ne_iff]⟩
  · rintro ⟨op, l, r, hlabel, hchildren, hchanges⟩
    refine ⟨op, e.subtree l, e.subtree r, ?_, by rwa [hasFixedValue_ne_iff]⟩
    exact subtree_binary hlabel (he.node_children_eq_iff.1 hchildren)

/-- The derivative of a node below an operator, on either side of it and next to any expression.
Unless the operator changes it, it is worth there what it is worth alone; where the operator does,
it applies another operator than alone to the same values. -/
theorem evaluate_attached_derivative (ht : t.Built) (hs : t.Saturated) (he : e.Built)
    (p : Operator) (q : t.Place) {d : Expression} (hd : d = t.derivative q) :
    (¬t.UnguardedUnder p q → ∀ (α : Type u) (A : Arithmetic α) (x : α),
      (binary p e d).evaluate A x (rightRoot p e d) = d.evaluate A x d.root ∧
      (binary p d e).evaluate A x (leftRoot p d e) = d.evaluate A x d.root) ∧
    (t.UnguardedUnder p q → ∃ (op : Operator) (l r : d.Place), d.label d.root = .binary op ∧
      (d.node d.root).children = [l.val, r.val] ∧ op.under (some (.binary p)) ≠ op ∧
      ∀ (α : Type u) (A : Arithmetic α) (x : α),
        d.evaluate A x d.root = op.apply A (d.evaluate A x l) (d.evaluate A x r) ∧
        (binary p e d).evaluate A x (rightRoot p e d) =
          (op.under (some (.binary p))).apply A (d.evaluate A x l) (d.evaluate A x r) ∧
        (binary p d e).evaluate A x (leftRoot p d e) =
          (op.under (some (.binary p))).apply A (d.evaluate A x l) (d.evaluate A x r)) := by
  subst hd
  have hlinked := linked_derivative q
  have hroot : (t.derivative q).label (t.derivative q).root = (t.slope q).label := by
    rw [derivative_eq_ofTree, label_root_ofTree]
  have hiff := ht.linked.changesUnder_slope_iff hs p q
  rw [← hroot] at hiff
  constructor
  · intro h α A x
    exact evaluate_operandRoots_of_not_changesUnder hlinked he.linked
      (Bool.eq_false_iff.2 (mt hiff.1 h)) A x
  · intro h
    exact evaluate_operandRoots_of_changesUnder hlinked he.linked
      (ht.linked.saturated_derivative hs q) (hiff.2 h)

def twice : Expression :=
  ofTree (.binary .add (.leaf .var) (.leaf .var))

theorem evaluate_attached_derivative_twice :
    ofText "x+x" = .ok twice ∧
      (binary .divide (single .var) (twice.derivative twice.root)).evaluate .float 2
          (rightRoot .divide (single .var) (twice.derivative twice.root)) =
        (twice.derivative twice.root).value 2 ∧
      ∃ op : Operator, (twice.derivative twice.root).label (twice.derivative twice.root).root =
        .binary op ∧ op.under (some (.binary .subtract)) ≠ op := by
  have htext : ofText "x+x" = .ok twice := by decide +kernel
  have hlabel : twice.label twice.root = .binary .add := by decide +kernel
  have hsubtract : twice.UnguardedUnder .subtract twice.root := by
    refine ⟨.add, ⟨1, by decide +kernel⟩, ⟨2, by decide +kernel⟩, hlabel, by decide +kernel, ?_⟩
    exact .inl ⟨rfl, by decide +kernel⟩
  have hdivide : ¬twice.UnguardedUnder .divide twice.root := by
    rintro ⟨op, l, r, hop, -, ⟨⟨⟩, -⟩ | ⟨-, rfl, -⟩⟩
    cases hlabel.symm.trans hop
  have hbuilt := built_of_ofText htext
  have hsat := saturated_of_ofText htext
  obtain ⟨hsame, -⟩ := evaluate_attached_derivative.{0} hbuilt hsat (.single .var) .divide
    twice.root rfl
  obtain ⟨-, hother⟩ := evaluate_attached_derivative.{0} hbuilt hsat (.single .var) .subtract
    twice.root rfl
  obtain ⟨op, l, r, hop, -, hne, -⟩ := hother hsubtract
  exact ⟨htext, (hsame hdivide Float .float 2).1, op, hop, hne⟩

/-- Alone the derivative of `x + x` is worth two, and right of a `-` it is worth nothing. -/
theorem exists_evaluate_attached_derivative_ne :
    ofText "x+x" = .ok twice ∧ (twice.derivative twice.root).value 2 = 2 ∧
      (binary .subtract (single .var) (twice.derivative twice.root)).evaluate .float 2
        (rightRoot .subtract (single .var) (twice.derivative twice.root)) = 0 ∧
      (2 : Float) ≠ 0 := by
  refine ⟨by decide +kernel, by decide +kernel, by decide +kernel, by decide +kernel⟩

end Expression

end Ordinate

import Mathlib
import Ordinate.Proofs.Derivative.Real
import Ordinate.Proofs.Expression.Built

/-!
# Nodes with a fixed value

Which power rule applies is decided by a look at the labels alone: an operand has a fixed value if
neither the variable nor a leaf without meaning stands in it.

* `Expression.hasFixedValue` : the same of a node of an expression;
* `Arithmetic.Exact` : an arithmetic which computes in a field, wherever a quotient has a meaning;
* `Expression.Defined` : no divisor and no operand of a logarithm is zero from a node down;
* `Expression.Linked.value_slope_of_hasFixedValue` : the derivative of such a node is worth zero;
* `Expression.Built.fixed_values` : what the labels say of a node, they say of its copies too, and
  it holds of its values and of its derivative.
-/

namespace Ordinate

universe u

/-! ## Exact arithmetic -/

/-- The arithmetic computes in a field. Quotients by zero, powers and logarithms are left open, but
only zero has the square zero. -/
structure Arithmetic.Exact {F : Type u} [Field F] (A : Arithmetic F) : Prop where
  add_eq : ∀ a b, A.add a b = a + b
  subtract_eq : ∀ a b, A.subtract a b = a - b
  multiply_eq : ∀ a b, A.multiply a b = a * b
  divide_eq : ∀ a b, b ≠ 0 → A.divide a b = a / b
  literal_zero : A.literal "0" = 0
  square_ne_zero : ∀ a, a ≠ 0 → A.power a (A.literal "2") ≠ 0

theorem Arithmetic.exact_real (R : RealReading) : (Arithmetic.real R).Exact where
  add_eq _ _ := rfl
  subtract_eq _ _ := rfl
  multiply_eq _ _ := rfl
  divide_eq _ _ _ := rfl
  literal_zero := R.value_zero
  square_ne_zero a ha := by
    show a ^ R.value "2" ≠ 0
    rw [R.value_two, Real.rpow_two]
    exact pow_ne_zero 2 ha

namespace Arithmetic.Exact

variable {F : Type u} [Field F] {A : Arithmetic F} (hA : A.Exact)

include hA

theorem divide_zero {b : F} (hb : b ≠ 0) : A.divide 0 b = 0 := by
  rw [hA.divide_eq 0 b hb, zero_div]

/-- What an operation's derivative is worth if both operands are fixed and so are worth nothing to
it. -/
theorem slopeRule_eq_zero {op : Operator} {l r : F} (hr : op = .divide → r ≠ 0) :
    A.slopeRule op true true l r 0 0 = 0 := by
  have hproducts : A.multiply 0 r = 0 ∧ A.multiply l 0 = 0 := by
    rw [hA.multiply_eq, hA.multiply_eq, zero_mul, mul_zero]
    exact ⟨rfl, rfl⟩
  cases op with
  | add =>
    show A.add 0 0 = 0
    rw [hA.add_eq, add_zero]
  | subtract =>
    show A.subtract 0 0 = 0
    rw [hA.subtract_eq, sub_zero]
  | multiply =>
    show A.add (A.multiply 0 r) (A.multiply l 0) = 0
    rw [hproducts.1, hproducts.2, hA.add_eq, add_zero]
  | divide =>
    show A.divide (A.subtract (A.multiply 0 r) (A.multiply l 0)) (A.power r (A.literal "2")) = 0
    rw [hproducts.1, hproducts.2, hA.subtract_eq, sub_zero]
    exact hA.divide_zero (hA.square_ne_zero r (hr rfl))
  | power => exact hA.literal_zero

end Arithmetic.Exact

namespace Expression

/-! ## Nodes and their copies -/

/-- Whether neither the variable nor a leaf without meaning stands from a node down. -/
def hasFixedValue (e : Expression) (p : e.Place) : Bool :=
  (e.subtree p).hasFixedValue

/-- A node with the meaning which it has under a parent labelled `context`, as an expression of its
own. -/
def appliedUnder (e : Expression) (context : Option Label) (p : e.Place) : Expression :=
  ofTree ((e.subtree p).applied context)

variable {e : Expression}

theorem hasFixedValue_root_ofTree (t : Tree) :
    (ofTree t).hasFixedValue (ofTree t).root = t.hasFixedValue :=
  congrArg Tree.hasFixedValue (toTree_ofTree t)

theorem hasFixedValue_appliedUnder (context : Option Label) (p : e.Place) :
    (e.appliedUnder context p).hasFixedValue (e.appliedUnder context p).root =
      e.hasFixedValue p := by
  rw [appliedUnder, hasFixedValue_root_ofTree, Tree.hasFixedValue_applied, hasFixedValue]

theorem hasFixedValue_binary {p l r : e.Place} {op : Operator} (hlabel : e.label p = .binary op)
    (hchildren : e.children p = [l, r]) :
    e.hasFixedValue p = (e.hasFixedValue l && e.hasFixedValue r) := by
  rw [hasFixedValue, subtree_binary hlabel hchildren, Tree.hasFixedValue_binary, hasFixedValue,
    hasFixedValue]

/-! ## Derivatives -/

section Defined

variable {F : Type u} [Field F] {A : Arithmetic F} {x : F}

/-- From the node `p` down no operation divides by zero, and no logarithm is taken of zero. -/
structure Defined (e : Expression) (A : Arithmetic F) (x : F) (p : e.Place) : Prop where
  divisor : ∀ q op l r, e.Below p q → e.label q = .binary op → e.children q = [l, r] →
    op.under (e.context q) = .divide → e.evaluate A x r ≠ 0
  argument : ∀ q g, e.Below p q → e.label q = .log → e.children q = [g] → e.evaluate A x g ≠ 0

theorem Defined.child {p c : e.Place} (h : e.Defined A x p) (hc : c ∈ e.children p) :
    e.Defined A x c where
  divisor q op l r hq := h.divisor q op l r (.head hc hq)
  argument q g hq := h.argument q g (.head hc hq)

/-- The derivative of a node with a fixed value is worth zero. The induction is from the leaves up:
by each rule the derivatives of the operands are factors or the whole dividend. -/
theorem Linked.value_slope_of_hasFixedValue (he : e.Linked) (hA : A.Exact) (p : e.Place)
    (hlen : ∀ q, e.Below p q → (e.node q).children.length = (e.label q).arity)
    (hfixed : e.hasFixedValue p) (hdefined : e.Defined A x p) :
    (e.slope p).value A x none = 0 := by
  induction p using induction_on_children with
  | step p ih =>
    have hzero : ∀ c ∈ e.children p, e.hasFixedValue c → (e.slope c).value A x none = 0 :=
      fun c hc hfixed => ih c hc (fun q hq => hlen q (.head hc hq)) hfixed (hdefined.child hc)
    cases he.operands (hlen p .refl) with
    | @binary op l r hlabel hchildren =>
      rw [hasFixedValue_binary hlabel hchildren, Bool.and_eq_true] at hfixed
      obtain ⟨hl, hr⟩ := hfixed
      have hdl := hzero l (by simp [hchildren]) hl
      have hdr := hzero r (by simp [hchildren]) hr
      rw [hasFixedValue] at hl hr
      rw [he.value_slope_binary A x hlabel hchildren, hl, hr, hdl, hdr]
      exact hA.slopeRule_eq_zero (hdefined.divisor p op l r .refl hlabel hchildren)
    | @log g hlabel hchildren =>
      rw [hasFixedValue, subtree_unary hlabel hchildren, Tree.hasFixedValue_log] at hfixed
      rw [he.value_slope_log A x hlabel hchildren, hzero g (by simp [hchildren]) hfixed]
      exact hA.divide_zero (hdefined.argument p g .refl hlabel hchildren)
    | @group g hlabel hchildren =>
      rw [hasFixedValue, subtree_unary hlabel hchildren, Tree.hasFixedValue_group] at hfixed
      rw [he.value_slope_group A x hlabel hchildren]
      exact hzero g (by simp [hchildren]) hfixed
    | literal hlabel hchildren =>
      rw [slope, subtree_leaf hlabel hchildren]
      exact hA.literal_zero
    | var hlabel hchildren | unknown hlabel hchildren =>
      rw [hasFixedValue, subtree_leaf hlabel hchildren] at hfixed
      cases hfixed

end Defined

/-- Whether a node has a fixed value is what the recursion over its stored children finds, in
whatever the operations make. If it has, it is worth the same in place wherever the variable is. A
copy has if the node has, plain or as the node is applied in any context. And if each node from there
down has its operands, a fixed value is differentiated without a gap, and the derivative is worth
zero wherever nothing is divided by zero and no logarithm is taken of it. -/
theorem Built.fixed_values (h : e.Built) (p : e.Place) :
    e.Yields (e.visit fixedRule) p.val (e.hasFixedValue p) ∧
    (e.hasFixedValue p → ∀ (α : Type u) (A : Arithmetic α) (x y : α),
      e.evaluate A x p = e.evaluate A y p) ∧
    (e.copy p).hasFixedValue (e.copy p).root = e.hasFixedValue p ∧
    (∀ context : Option Label, (e.appliedUnder context p).hasFixedValue
      (e.appliedUnder context p).root = e.hasFixedValue p) ∧
    ((∀ q, e.Below p q → (e.node q).children.length = (e.label q).arity) → e.hasFixedValue p →
      (∀ r : GapRecord, (e.derivativeWith p r).2 = r) ∧
      ∀ (F : Type u) [Field F] (A : Arithmetic F) (x : F), A.Exact → e.Defined A x p →
        (e.derivative p).evaluate A x (e.derivative p).root = 0) := by
  have he := h.linked
  refine ⟨he.yields_hasFixedValue p, fun hfixed α A x y => ?_, hasFixedValue_root_ofTree _,
    fun context => hasFixedValue_appliedUnder context p, fun hlen hfixed => ⟨fun r => ?_, ?_⟩⟩
  · rw [he.evaluate_eq_value, he.evaluate_eq_value]
    exact Tree.value_eq_of_hasFixedValue A hfixed x y _
  · rw [derivativeWith_keeps_iff, gaps,
      Tree.gaps_applied_eq_empty_iff (he.saturated_subtree_iff.2 hlen)]
    exact Tree.ruled_of_hasFixedValue hfixed
  · intro F _ A x hA hdefined
    rw [evaluate_derivative]
    exact he.value_slope_of_hasFixedValue hA p hlen hfixed hdefined

/-- The difference `x-1/log(2)-2^1`, in which the node on the right is labelled `-` and adds. -/
def lessQuotient : Expression :=
  ofTree (.binary .subtract (.leaf .var) (.binary .subtract
    (.binary .divide (.number "1") (.unary .log (.number "2")))
    (.binary .power (.number "2") (.number "1"))))

def lessQuotient.right : lessQuotient.Place :=
  ⟨2, by decide +kernel⟩

def lessQuotient.quotient : lessQuotient.Place :=
  ⟨3, by decide +kernel⟩

def lessQuotient.logarithm : lessQuotient.Place :=
  ⟨5, by decide +kernel⟩

def lessQuotient.two : lessQuotient.Place :=
  ⟨6, by decide +kernel⟩

theorem Built.fixed_values_lessQuotient :
    (∀ x y : Float, lessQuotient.evaluate .float x lessQuotient.right =
      lessQuotient.evaluate .float y lessQuotient.right) ∧
    (lessQuotient.copy lessQuotient.right).hasFixedValue
      (lessQuotient.copy lessQuotient.right).root ∧
    (lessQuotient.derivativeWith lessQuotient.right {}).2 = {} ∧
    (lessQuotient.derivative lessQuotient.right).evaluate (.real .double) 3
      (lessQuotient.derivative lessQuotient.right).root = 0 := by
  have hbuilt : lessQuotient.Built := built_ofTree _
  have hfixed : lessQuotient.hasFixedValue lessQuotient.right := by decide +kernel
  have hlen : ∀ q : lessQuotient.Place,
      (lessQuotient.node q).children.length = (lessQuotient.label q).arity := by decide +kernel
  have hdivides : ∀ q : lessQuotient.Place, q = lessQuotient.quotient ∨
      ((lessQuotient.label q).operator?.map fun op => op.under (lessQuotient.context q)) ≠
        some .divide := by decide +kernel
  have hlog : ∀ q : lessQuotient.Place, q = lessQuotient.logarithm ∨
      lessQuotient.label q ≠ .log := by decide +kernel
  have hquotient : lessQuotient.children lessQuotient.quotient =
      [⟨4, by decide +kernel⟩, lessQuotient.logarithm] := by decide +kernel
  have hlogarithm : lessQuotient.children lessQuotient.logarithm = [lessQuotient.two] := by
    decide +kernel
  have htwo : lessQuotient.evaluate (.real .double) 3 lessQuotient.two = 2 := by
    have hlabel : lessQuotient.label lessQuotient.two = .literal "2" := by decide +kernel
    rw [evaluate_eq, hlabel]
    exact RealReading.double.value_two
  have hlogTwo : lessQuotient.evaluate (.real .double) 3 lessQuotient.logarithm = Real.log 2 := by
    have hlabel : lessQuotient.label lessQuotient.logarithm = .log := by decide +kernel
    rw [evaluate_eq, hlabel, hlogarithm, List.map_singleton, htwo]
    rfl
  have hdefined : lessQuotient.Defined (.real .double) 3 lessQuotient.right := by
    refine ⟨fun q op l r _ hlabel hchildren hop => ?_, fun q g _ hlabel hchildren => ?_⟩
    · obtain rfl | hq := hdivides q
      · cases hquotient.symm.trans hchildren
        rw [hlogTwo]
        exact (Real.log_pos one_lt_two).ne'
      · rw [hlabel] at hq
        exact absurd (congrArg some hop) hq
    · obtain rfl | hq := hlog q
      · cases hlogarithm.symm.trans hchildren
        rw [htwo]
        exact two_ne_zero
      · exact absurd hlabel hq
  obtain ⟨-, hvalue, hcopy, -, hderivative⟩ := Built.fixed_values.{0} hbuilt lessQuotient.right
  obtain ⟨hgaps, hzero⟩ := hderivative (fun q _ => hlen q) hfixed
  exact ⟨hvalue hfixed Float .float, hcopy.trans hfixed, hgaps {},
    hzero ℝ (.real .double) 3 (Arithmetic.exact_real .double) hdefined⟩

end Expression

end Ordinate

import Mathlib
import Ordinate.Proofs.Derivative.Ruled
import Ordinate.Proofs.Expression.Text

/-!
# Derivatives over the real numbers

* `RealReading` : a reading of literals as real numbers; `RealReading.double` takes the double which
  a literal denotes, `RealReading.decimal` the decimal which it writes;
* `Arithmetic.real` : the real numbers, with the natural logarithm and the real power;
* `Operator.Regular`, `Expression.Regular` : where an operation, and everything from a node down, is
  in the domain of calculus;
* `Expression.hasDerivAt_evaluate` : where no gap is met, the derivative of a node is worth the
  derivative of the node's value.
-/

namespace Ordinate

/-! ## Literals as real numbers -/

/-- The real number of a finite double; the others count as zero. -/
noncomputable def Binary64.toReal : Binary64 → ℝ
  | finite negative m => (if negative then -1 else 1) * (m.significand * 2 ^ m.exponent)
  | nan | infinity _ => 0

/-- The real number which a literal writes, for a sign and a decimal; a name counts as zero. -/
noncomputable def Literal.Unsigned.toReal (negative : Bool) : Unsigned → ℝ
  | decimal d => (if negative then -1 else 1) * (d.digits * 10 ^ d.exponent)
  | nan | infinity => 0

/-- A reading of literals as real numbers, which takes the numerals of the rules for what they
are. -/
structure RealReading where
  value : String → ℝ
  value_zero : value "0" = 0
  value_one : value "1" = 1
  value_two : value "2" = 2

/-- Each literal is the double which it denotes. -/
noncomputable def RealReading.double : RealReading where
  value text := ((Literal.value? text).map fun v => (Binary64.ofFloat v).toReal).getD 0
  value_zero := by
    have h : (Literal.value? "0").map Binary64.ofFloat = some (.finite false ⟨0, -1074, false⟩) :=
      rfl
    rw [← Function.comp_def, ← Option.map_map, h]
    simp [Binary64.toReal]
  value_one := by
    have h : (Literal.value? "1").map Binary64.ofFloat = some (.finite false ⟨2 ^ 52, -52, true⟩) :=
      rfl
    rw [← Function.comp_def, ← Option.map_map, h]
    simp [Binary64.toReal]
    norm_num
  value_two := by
    have h : (Literal.value? "2").map Binary64.ofFloat = some (.finite false ⟨2 ^ 52, -51, true⟩) :=
      rfl
    rw [← Function.comp_def, ← Option.map_map, h]
    simp [Binary64.toReal]
    norm_num

/-- Each literal is the decimal which it writes. -/
noncomputable def RealReading.decimal : RealReading where
  value text :=
    ((Literal.readUnsigned (Literal.splitSign text.toList).2).map
      (Literal.Unsigned.toReal (Literal.splitSign text.toList).1)).getD 0
  value_zero := by
    show ((some (Literal.Unsigned.decimal ⟨0, 0⟩)).map (Literal.Unsigned.toReal false)).getD 0 = 0
    simp [Literal.Unsigned.toReal]
  value_one := by
    show ((some (Literal.Unsigned.decimal ⟨1, 0⟩)).map (Literal.Unsigned.toReal false)).getD 0 = 1
    simp [Literal.Unsigned.toReal]
  value_two := by
    show ((some (Literal.Unsigned.decimal ⟨2, 0⟩)).map (Literal.Unsigned.toReal false)).getD 0 = 2
    simp [Literal.Unsigned.toReal]

/-- The real numbers, with the natural logarithm and the real power. -/
noncomputable def Arithmetic.real (R : RealReading) : Arithmetic ℝ where
  zero := 0
  add := (· + ·)
  subtract := (· - ·)
  multiply := (· * ·)
  divide := (· / ·)
  power := (· ^ ·)
  log := Real.log
  literal := R.value

/-! ## Operations -/

/-- An operation on the values `l` and `r` is in the domain of calculus: a divisor is not zero, and
the base of a power which is not fixed is positive, or not zero under a fixed whole exponent. -/
def Operator.Regular (op : Operator) (fixedLeft fixedRight : Bool) (l r : ℝ) : Prop :=
  match op with
  | .add | .subtract | .multiply => True
  | .divide => r ≠ 0
  | .power => (fixedLeft ∧ fixedRight) ∨ 0 < l ∨ (l ≠ 0 ∧ fixedRight ∧ ∃ k : ℤ, r = k)

section Operations

variable {R : RealReading} {f g : ℝ → ℝ} {f' g' x : ℝ} {fixedLeft fixedRight : Bool}

/-- The power rules, for an operand which keeps its value. -/
theorem hasDerivAt_power (hf : HasDerivAt f f' x) (hg : HasDerivAt g g' x)
    (hleft : fixedLeft → ∀ y, f y = f x) (hright : fixedRight → ∀ y, g y = g x)
    (hfixed : fixedLeft ∨ fixedRight)
    (hreg : Operator.power.Regular fixedLeft fixedRight (f x) (g x)) :
    HasDerivAt (fun y => f y ^ g y)
      ((Arithmetic.real R).slopeRule .power fixedLeft fixedRight (f x) (g x) f' g') x := by
  cases fixedLeft with
  | true =>
    have hconst : f = fun _ => f x := funext (hleft rfl)
    cases fixedRight with
    | true =>
      have hpow : (fun y => f y ^ g y) = fun _ => f x ^ g x := by
        funext y
        rw [hleft rfl y, hright rfl y]
      rw [hpow]
      exact (hasDerivAt_const x (f x ^ g x)).congr_deriv R.value_zero.symm
    | false =>
      have hpos : 0 < f x := by
        rcases hreg with ⟨-, h⟩ | h | ⟨-, h, -⟩
        · cases h
        · exact h
        · cases h
      have hpow : (fun y => f y ^ g y) = fun y => f x ^ g y := by
        funext y
        rw [hleft rfl y]
      rw [hpow]
      refine (hg.const_rpow hpos).congr_deriv ?_
      show Real.log (f x) * g' * f x ^ g x = g' * f x ^ g x * Real.log (f x)
      ring
  | false =>
    have hr : fixedRight = true := hfixed.resolve_left nofun
    subst hr
    have hne : f x ≠ 0 := by
      rcases hreg with ⟨h, -⟩ | h | ⟨h, -⟩
      · cases h
      · exact h.ne'
      · exact h
    have hpow : (fun y => f y ^ g y) = fun y => f y ^ g x := by
      funext y
      rw [hright rfl y]
    rw [hpow]
    refine (hf.rpow_const (.inl hne)).congr_deriv ?_
    show f' * g x * f x ^ (g x - 1) = f' * f x ^ (g x - R.value "1") * g x
    rw [R.value_one]
    ring

theorem hasDerivAt_apply (op : Operator) (hf : HasDerivAt f f' x) (hg : HasDerivAt g g' x)
    (hleft : fixedLeft → ∀ y, f y = f x) (hright : fixedRight → ∀ y, g y = g x)
    (hfixed : op = .power → fixedLeft ∨ fixedRight)
    (hreg : op.Regular fixedLeft fixedRight (f x) (g x)) :
    HasDerivAt (fun y => op.apply (Arithmetic.real R) (f y) (g y))
      ((Arithmetic.real R).slopeRule op fixedLeft fixedRight (f x) (g x) f' g') x := by
  cases op with
  | add => exact hf.add hg
  | subtract => exact hf.sub hg
  | multiply => exact hf.mul hg
  | divide =>
    refine (hf.div hg hreg).congr_deriv ?_
    show _ = (f' * g x - f x * g') / g x ^ R.value "2"
    rw [R.value_two, Real.rpow_two]
  | power => exact hasDerivAt_power hf hg hleft hright (hfixed rfl) hreg

end Operations

/-! ## Expressions -/

namespace Expression

variable {e : Expression} {R : RealReading} {x : ℝ}

/-- Everything from the node `p` down is in the domain of calculus: every operation which is
applied, and every logarithm, whose operand is positive. -/
structure Regular (e : Expression) (R : RealReading) (x : ℝ) (p : e.Place) : Prop where
  operation : ∀ q op l r, e.Below p q → e.label q = .binary op → e.children q = [l, r] →
    (op.under (e.context q)).Regular (e.subtree l).hasFixedValue (e.subtree r).hasFixedValue
      (e.evaluate (.real R) x l) (e.evaluate (.real R) x r)
  log : ∀ q g, e.Below p q → e.label q = .log → e.children q = [g] →
    0 < e.evaluate (.real R) x g

theorem Regular.child {p c : e.Place} (h : e.Regular R x p) (hc : c ∈ e.children p) :
    e.Regular R x c where
  operation q op l r hq := h.operation q op l r (.head hc hq)
  log q g hq := h.log q g (.head hc hq)

/-! ## Soundness of the rules -/

section Cases

variable {p : e.Place} (he : e.Linked) (hs : e.Saturated)

include he hs

theorem Linked.gaps_of_hasFixedValue (c : e.Place) (h : (e.subtree c).hasFixedValue) :
    e.gaps c = #[] :=
  (he.gaps_eq_empty_iff hs c).2 (Tree.ruled_of_hasFixedValue h)

omit hs in
theorem Linked.evaluate_of_hasFixedValue (c : e.Place) (h : (e.subtree c).hasFixedValue)
    (y : ℝ) : e.evaluate (.real R) y c = e.evaluate (.real R) x c := by
  rw [he.evaluate_eq_value, he.evaluate_eq_value]
  exact Tree.value_eq_of_hasFixedValue _ h y x _

theorem Linked.hasDerivAt_operation {op : Operator} {l r : e.Place}
    (hlabel : e.label p = .binary op) (hchildren : e.children p = [l, r])
    (hgaps : e.gaps p = #[]) (hreg : e.Regular R x p)
    (ih : ∀ c ∈ e.children p, e.gaps c = #[] →
      HasDerivAt (fun y => e.evaluate (.real R) y c) ((e.slope c).value (.real R) x none) x) :
    HasDerivAt (fun y => e.evaluate (.real R) y p) ((e.slope p).value (.real R) x none) x := by
  have hcontext := he.context_operands hlabel hchildren
  -- An operand which is not looked into has a fixed value, and so no gap of its own.
  rw [gaps, subtree_binary hlabel hchildren, Tree.gaps_applied] at hgaps
  obtain ⟨hl, hr, hfixed⟩ := (Tree.operationGaps_eq_empty_iff
    (fun h => hcontext.1 ▸ he.gaps_of_hasFixedValue hs l h)
    (fun h => hcontext.2 ▸ he.gaps_of_hasFixedValue hs r h)).1 hgaps
  have hdl := ih l (by simp [hchildren]) (by rwa [gaps, hcontext.1])
  have hdr := ih r (by simp [hchildren]) (by rwa [gaps, hcontext.2])
  have hvalue : (fun y => e.evaluate (.real R) y p) = fun y =>
      (op.under (e.context p)).apply (.real R) (e.evaluate (.real R) y l)
        (e.evaluate (.real R) y r) :=
    funext fun y => evaluate_binary _ y hlabel hchildren
  rw [he.value_slope_binary _ x hlabel hchildren, hvalue]
  exact hasDerivAt_apply _ hdl hdr (he.evaluate_of_hasFixedValue l)
    (he.evaluate_of_hasFixedValue r) hfixed
    (hreg.operation p op l r .refl hlabel hchildren)

end Cases

/-- Where no gap is met, the derivative of a node is worth the derivative of its value. The
induction is from the leaves up, each operand standing in the context of its parent. -/
theorem Linked.hasDerivAt_slope (he : e.Linked) (hs : e.Saturated) (p : e.Place)
    (hgaps : e.gaps p = #[]) (hreg : e.Regular R x p) :
    HasDerivAt (fun y => e.evaluate (.real R) y p) ((e.slope p).value (.real R) x none) x := by
  induction p using induction_on_children with
  | step p ih =>
    replace ih := fun c hc hgaps => ih c hc hgaps (hreg.child hc)
    cases he.operands (hs p) with
    | binary hlabel hchildren =>
      exact he.hasDerivAt_operation hs hlabel hchildren hgaps hreg ih
    | @log g hlabel hchildren =>
      have hcontext := he.context_operand hlabel hchildren
      have hvalue : (fun y => e.evaluate (.real R) y p) =
          fun y => Real.log (e.evaluate (.real R) y g) := by
        funext y
        rw [evaluate_eq, hlabel, hchildren]
        rfl
      rw [gaps, subtree_unary hlabel hchildren, Tree.gaps_applied_unary (.inl rfl),
        ← hcontext] at hgaps
      rw [he.value_slope_log _ x hlabel hchildren, hvalue]
      exact (ih g (by simp [hchildren]) hgaps).log (hreg.log p g .refl hlabel hchildren).ne'
    | @group g hlabel hchildren =>
      have hcontext := he.context_operand hlabel hchildren
      have hvalue : (fun y => e.evaluate (.real R) y p) = fun y => e.evaluate (.real R) y g := by
        funext y
        rw [evaluate_eq, hlabel, hchildren]
        rfl
      rw [gaps, subtree_unary hlabel hchildren, Tree.gaps_applied_unary (.inr rfl),
        ← hcontext] at hgaps
      rw [he.value_slope_group _ x hlabel hchildren, hvalue]
      exact ih g (by simp [hchildren]) hgaps
    | var hlabel hchildren =>
      have hvalue : (fun y => e.evaluate (.real R) y p) = fun y => y := by
        funext y
        rw [evaluate_eq, hlabel, hchildren]
        rfl
      rw [hvalue, slope, subtree_leaf hlabel hchildren]
      exact (hasDerivAt_id x).congr_deriv R.value_one.symm
    | @literal text hlabel hchildren =>
      have hvalue : (fun y => e.evaluate (.real R) y p) = fun _ => R.value text := by
        funext y
        rw [evaluate_eq, hlabel, hchildren]
        rfl
      rw [hvalue, slope, subtree_leaf hlabel hchildren]
      exact (hasDerivAt_const x (R.value text)).congr_deriv R.value_zero.symm
    | unknown hlabel hchildren =>
      rw [gaps, subtree_leaf hlabel hchildren] at hgaps
      cases hgaps

/-- Every saturated tree and every text makes an expression with sound links and all operands; and
in every such expression the derivative of a node, where it stands, is worth the derivative of the
node's value, if no gap is met and everything from the node down is in the domain of calculus. -/
theorem hasDerivAt_evaluate (R : RealReading) :
    (∀ t : Tree, t.Saturated → (ofTree t).Linked ∧ (ofTree t).Saturated) ∧
    (∀ text limits e, ofText text limits = .ok e → e.Linked ∧ e.Saturated) ∧
    ∀ e : Expression, e.Linked → e.Saturated → ∀ (p : e.Place) (x : ℝ),
      (e.derivativeWith p {}).2.gaps = #[] → e.Regular R x p →
      HasDerivAt (fun y => e.evaluate (.real R) y p)
        ((e.derivative p).evaluate (.real R) x (e.derivative p).root) x := by
  refine ⟨fun t ht => ⟨linked_ofTree t, saturated_ofTree ht⟩,
    fun text limits e h => ⟨linked_of_ofText h, saturated_of_ofText h⟩, ?_⟩
  intro e he hs p x hgaps hreg
  rw [evaluate_derivative]
  exact he.hasDerivAt_slope hs p hgaps hreg

/-- The expression written by `x/(x*x)*x`, in which the second node labelled `*` divides. -/
def overProduct : Expression :=
  ofTree (.binary .divide (.leaf .var)
    (.binary .multiply (.unary .group (.binary .multiply (.leaf .var) (.leaf .var))) (.leaf .var)))

def overProduct.inner : overProduct.Place :=
  ⟨2, by decide +kernel⟩

/-- The node is worth `x * x / x`, which grows as `x` does; a product would grow faster. -/
theorem hasDerivAt_evaluate_inner :
    HasDerivAt (fun y => overProduct.evaluate (.real .double) y overProduct.inner)
      ((overProduct.derivative overProduct.inner).evaluate (.real .double) 3
        (overProduct.derivative overProduct.inner).root) 3 ∧
      (overProduct.derivative overProduct.inner).evaluate (.real .double) 3
        (overProduct.derivative overProduct.inner).root = 1 := by
  have htext : ofText "x/(x*x)*x" = .ok overProduct := by decide +kernel
  have hlinked := linked_of_ofText htext
  have hcontext : overProduct.context overProduct.inner = some (.binary .divide) := by
    decide +kernel
  have hvalue : ∀ y, overProduct.evaluate (.real .double) y overProduct.inner = y * y / y := by
    intro y
    have htree : overProduct.subtree overProduct.inner =
        .binary .multiply (.unary .group (.binary .multiply (.leaf .var) (.leaf .var)))
          (.leaf .var) := by
      decide +kernel
    rw [hlinked.evaluate_eq_value, htree, hcontext]
    rfl
  have hregular : overProduct.Regular .double 3 overProduct.inner := by
    have hlog : ∀ q : overProduct.Place, overProduct.label q ≠ .log := by decide +kernel
    have hlabel : overProduct.label overProduct.inner = .binary .multiply := by decide +kernel
    have hchildren : overProduct.children overProduct.inner =
        [⟨3, by decide +kernel⟩, ⟨7, by decide +kernel⟩] := by decide +kernel
    have hvar : overProduct.label ⟨7, by decide +kernel⟩ = .var := by decide +kernel
    have hplaces : ∀ q : overProduct.Place, q < overProduct.inner ∨ q = overProduct.inner ∨
        (overProduct.label q = .binary .multiply ∧ overProduct.context q = some .group) ∨
          overProduct.children q = [] ∨ overProduct.label q = .group := by
      decide +kernel
    refine ⟨fun q op l r hq hop hlr => ?_, fun q g _ h => absurd h (hlog q)⟩
    obtain h | rfl | ⟨h, hgroup⟩ | h | h := hplaces q
    · exact absurd hq.le (Nat.not_le.2 h)
    · cases hlabel.symm.trans hop
      cases hchildren.symm.trans hlr
      rw [hcontext, evaluate_eq _ _ _ ⟨7, _⟩, hvar]
      exact three_ne_zero
    · cases h.symm.trans hop
      rw [hgroup]
      trivial
    · cases h.symm.trans hlr
    · cases h.symm.trans hop
  have hderiv := (hasDerivAt_evaluate .double).2.2 _ hlinked (saturated_of_ofText htext)
    overProduct.inner 3 (by decide +kernel) hregular
  refine ⟨hderiv, hderiv.unique ?_⟩
  have hself : HasDerivAt (fun y : ℝ => y * y / y) 1 3 := by
    refine (((hasDerivAt_id' (3 : ℝ)).mul (hasDerivAt_id' 3)).div (hasDerivAt_id' 3)
      three_ne_zero).congr_deriv ?_
    norm_num
  rwa [← funext hvalue] at hself

end Expression

end Ordinate

import Ordinate.Proofs.Double.Rounded

/-!
# Operations on unpacked doubles

* `Double.roundedTo_add` and its siblings : sums, differences, products and quotients of unpacked
  numbers are those of the numbers which they denote, rounded;
* `Double.compare_eq` : the order of unpacked numbers is that of the numbers which they denote;
* `Double.infinity_div` and its siblings : operations on an infinity;
* `Double.toNat_toInt_le` : truncation does not go up from a number which is not negative.
-/

namespace Ordinate.Double

open Float.Model Float.Model.UnpackedFloat

variable {f g : UnpackedFloat}

/-! ## Signs -/

theorem cast_apply (s : Sign) (n : ℤ) : ((s.apply n : ℤ) : ℚ) = signed s n := by
  cases s with
  | negative => exact Int.cast_neg n
  | positive => rfl

theorem signed_mul (s : Sign) (q r : ℚ) : signed s q * r = signed s (q * r) := by
  cases s with
  | negative => exact neg_mul q r
  | positive => rfl

theorem signed_mul_signed (s s' : Sign) (q r : ℚ) :
    signed s q * signed s' r = signed (s * s') (q * r) := by
  cases s <;> cases s'
  · exact neg_mul_neg q r
  · exact neg_mul q r
  · exact mul_neg q r
  · rfl

theorem signed_div_signed (s s' : Sign) (q r : ℚ) :
    signed s q / signed s' r = signed (s / s') (q / r) := by
  cases s <;> cases s'
  · exact neg_div_neg_eq q r
  · exact neg_div r q
  · exact div_neg q
  · rfl

theorem signed_neg (s : Sign) (q : ℚ) : signed (-s) q = -signed s q := by
  cases s with
  | negative => exact (neg_neg q).symm
  | positive => rfl

@[simp] theorem signed_zero (s : Sign) : signed s 0 = 0 := by
  cases s with
  | negative => exact neg_zero
  | positive => rfl

/-! ## Sums and differences -/

/-- A mantissa at a smaller exponent denotes the same. -/
theorem decreaseExponent_value (s : Sign) (m : ℕ) {e e' : ℤ} (h : e' ≤ e) :
    ((s.apply (m <<< (e - e').toNat : ℕ) : ℤ) : ℚ) * 2 ^ e' = signed s (m * 2 ^ e) := by
  have he : e' + (e - e').toNat = e := by omega
  rw [cast_apply, signed_mul, Int.cast_natCast, Nat.shiftLeft_eq, Nat.cast_mul, Nat.cast_pow,
    Nat.cast_ofNat, mul_assoc, ← two_zpow_add_natCast, he]

theorem roundedTo_add (hf : Canonical f) (hg : Canonical g) :
    RoundedTo (unpackedValue f + unpackedValue g) (UnpackedFloat.add .binary64 f g) := by
  cases hf with
  | zero s =>
    rw [unpackedValue_zero, zero_add]
    cases hg with
    | zero s' =>
      rw [unpackedValue_zero]
      cases s <;> cases s' <;> exact roundedTo_zero _
    | finite s' hm hlt he hunit => exact (Canonical.finite s' hm hlt he hunit).roundedTo_self
  | @finite s m e hm hlt he hunit =>
    cases hg with
    | zero s' =>
      rw [unpackedValue_zero s', add_zero]
      exact (Canonical.finite s hm hlt he hunit).roundedTo_self
    | @finite s' m' e' hm' _ _ _ =>
      have hsum := roundedTo_normalize
        (s.apply (m <<< (e - min e e').toNat : ℕ) + s'.apply (m' <<< (e' - min e e').toNat : ℕ))
        (min e e') .positive
      rw [Int.cast_add, add_mul, decreaseExponent_value s m (min_le_left e e'),
        decreaseExponent_value s' m' (min_le_right e e')] at hsum
      exact hsum

theorem roundedTo_sub (hf : Canonical f) (hg : Canonical g) :
    RoundedTo (unpackedValue f - unpackedValue g) (UnpackedFloat.sub .binary64 f g) := by
  cases hf with
  | zero s =>
    rw [unpackedValue_zero, zero_sub]
    cases hg with
    | zero s' =>
      rw [unpackedValue_zero, neg_zero]
      cases s <;> cases s' <;> exact roundedTo_zero _
    | finite s' hm hlt he hunit =>
      rw [unpackedValue_finite, ← signed_neg]
      exact (Canonical.finite (-s') hm hlt he hunit).roundedTo_self
  | @finite s m e hm hlt he hunit =>
    cases hg with
    | zero s' =>
      rw [unpackedValue_zero s', sub_zero]
      exact (Canonical.finite s hm hlt he hunit).roundedTo_self
    | @finite s' m' e' hm' _ _ _ =>
      have hdiff := roundedTo_normalize
        (s.apply (m <<< (e - min e e').toNat : ℕ) - s'.apply (m' <<< (e' - min e e').toNat : ℕ))
        (min e e') .positive
      rw [Int.cast_sub, sub_mul, decreaseExponent_value s m (min_le_left e e'),
        decreaseExponent_value s' m' (min_le_right e e')] at hdiff
      exact hdiff

/-! ## Products and quotients -/

theorem roundedTo_mul (hf : Canonical f) (hg : Canonical g) :
    RoundedTo (unpackedValue f * unpackedValue g) (UnpackedFloat.mul .binary64 f g) := by
  cases hf with
  | zero s =>
    rw [unpackedValue_zero, zero_mul]
    cases hg with
    | zero | finite => exact roundedTo_zero _
  | @finite s m e hm hlt he hunit =>
    cases hg with
    | zero s' =>
      rw [unpackedValue_zero, mul_zero]
      exact roundedTo_zero _
    | @finite s' m' e' hm' _ he' hunit' =>
      have hvalue : (m : ℚ) * 2 ^ e * (m' * 2 ^ e') = (m * m' : ℕ) * 2 ^ (e + e') := by
        rw [zpow_add₀ two_ne_zero, Nat.cast_mul, mul_mul_mul_comm]
      rw [unpackedValue_finite, unpackedValue_finite, signed_mul_signed, hvalue]
      refine roundedTo_roundWithAccuracy (represents_exact _) ?_
      rw [targetExponent_binary64, totalExponent]
      -- One factor has all its bits, or the exponent is below the least one.
      by_cases hleast : e = -1074 ∧ e' = -1074
      · omega
      · have hlarge : 2 ^ 52 ≤ m * m' := by
          rcases hunit with h | h
          · exact (hunit'.resolve_left fun h' => hleast ⟨h, h'⟩).trans (Nat.le_mul_of_pos_left m' hm)
          · exact h.trans (Nat.le_mul_of_pos_right m hm')
        have hlog := (Nat.le_log2 (Nat.mul_pos hm hm').ne').2 hlarge
        omega

/-- The quotient of two mantissas has enough bits, if it is divided at the exponent which is asked
for. -/
theorem two_pow_le_shiftLeft_div {m m' k : ℕ} (hm : m ≠ 0) (hm' : 0 < m')
    (hk : 53 + m'.log2 ≤ m.log2 + k) : 2 ^ 52 ≤ (m <<< k) / m' := by
  rw [Nat.le_div_iff_mul_le hm']
  calc 2 ^ 52 * m' ≤ 2 ^ 52 * 2 ^ (m'.log2 + 1) := Nat.mul_le_mul_left _ Nat.lt_log2_self.le
    _ = 2 ^ (53 + m'.log2) := by rw [← pow_add]; congr 1; omega
    _ ≤ 2 ^ (m.log2 + k) := Nat.pow_le_pow_right two_pos hk
    _ ≤ m <<< k := by
      rw [pow_add, Nat.shiftLeft_eq]
      exact Nat.mul_le_mul_right _ (Nat.log2_self_le hm)

theorem cast_div_add_mod (m : ℕ) {m' : ℕ} (hm' : 0 < m') :
    ((m / m' : ℕ) : ℚ) + (m % m' : ℕ) / m' = m / m' := by
  have hne : (m' : ℚ) ≠ 0 := by exact_mod_cast hm'.ne'
  rw [eq_div_iff hne, add_mul, div_mul_cancel₀ _ hne]
  exact_mod_cast Nat.div_add_mod' m m'

theorem roundedTo_div (hf : Canonical f) (hg : Canonical g) (hne : unpackedValue g ≠ 0) :
    RoundedTo (unpackedValue f / unpackedValue g) (UnpackedFloat.div .binary64 f g) := by
  cases hg with
  | zero s' => exact absurd rfl hne
  | @finite s' m' e' hm' _ _ _ =>
    cases hf with
    | zero s =>
      rw [unpackedValue_zero, zero_div]
      exact roundedTo_zero _
    | @finite s m e hm _ _ _ =>
      obtain ⟨t, ht⟩ : ∃ t, t = min (e - e')
        (Format.binary64.targetExponent (totalExponent m e - totalExponent m' e')) := ⟨_, rfl⟩
      obtain ⟨k, hk⟩ : ∃ k, k = (e - e' - t).toNat := ⟨_, rfl⟩
      have hdiv : UnpackedFloat.div .binary64 (.finite s m e hm) (.finite s' m' e' hm') =
          roundWithAccuracy .binary64 (s / s') (m <<< k / m') t
            (accuracyOfFraction (m <<< k % m') m') := by
        rw [hk, ht]
        rfl
      have hvalue : (m : ℚ) * 2 ^ e / (m' * 2 ^ e') =
          ((m <<< k / m' : ℕ) + (m <<< k % m' : ℕ) / m') * 2 ^ t := by
        have hexponent : (2 : ℚ) ^ e / 2 ^ e' = 2 ^ k * 2 ^ t := by
          rw [← zpow_sub₀ two_ne_zero, ← two_zpow_add_natCast]
          congr 1
          omega
        rw [cast_div_add_mod _ hm', mul_div_mul_comm, hexponent, Nat.shiftLeft_eq, Nat.cast_mul,
          Nat.cast_pow, Nat.cast_ofNat, ← mul_assoc, div_mul_eq_mul_div]
      rw [unpackedValue_finite, unpackedValue_finite, signed_div_signed, hdiv, hvalue]
      refine roundedTo_roundWithAccuracy (represents_fraction _ (Nat.mod_lt _ hm')) ?_
      rw [targetExponent_binary64, totalExponent, totalExponent] at ht
      rw [targetExponent_binary64, totalExponent]
      by_cases hleast : t ≤ -1074
      · omega
      · have hlarge : 2 ^ 52 ≤ m <<< k / m' := two_pow_le_shiftLeft_div hm.ne' hm' (by omega)
        have hlog := (Nat.le_log2 (by positivity)).2 hlarge
        omega

/-! ## Order -/

theorem compare_neg_neg (q r : ℚ) : compare (-q) (-r) = (compare q r).swap := by
  rcases lt_trichotomy q r with h | rfl | h
  · rw [compare_lt_iff_lt.2 h]
    exact compare_gt_iff_gt.2 (neg_lt_neg h)
  · rw [compare_eq_iff_eq.2 (rfl : q = q)]
    exact compare_eq_iff_eq.2 rfl
  · rw [compare_gt_iff_gt.2 h]
    exact compare_lt_iff_lt.2 (neg_lt_neg h)

section Magnitudes

variable {m m' : ℕ} {e e' : ℤ}

/-- Of two canonical magnitudes, that with the greater exponent is the greater one. -/
theorem magnitude_lt (hlt : m < 2 ^ 53) (he : -1074 ≤ e) (hunit : e' = -1074 ∨ 2 ^ 52 ≤ m')
    (hee' : e < e') : (m : ℚ) * 2 ^ e < m' * 2 ^ e' := by
  have hm' : (2 : ℚ) ^ 52 ≤ m' := by exact_mod_cast hunit.resolve_left (by omega)
  have hm : (m : ℚ) < 2 ^ 53 := by exact_mod_cast hlt
  calc (m : ℚ) * 2 ^ e < 2 ^ 53 * 2 ^ e := mul_lt_mul_of_pos_right hm (two_zpow_pos e)
    _ = 2 ^ 52 * 2 ^ (e + 1) := by
      rw [show (2 : ℚ) ^ (e + 1) = 2 ^ 1 * 2 ^ e from two_zpow_add_natCast e 1]
      ring
    _ ≤ 2 ^ 52 * 2 ^ e' :=
      mul_le_mul_of_nonneg_left (zpow_le_zpow_right₀ one_le_two hee') (by positivity)
    _ ≤ m' * 2 ^ e' := mul_le_mul_of_nonneg_right hm' (two_zpow_pos e').le

theorem compare_magnitudes (hlt : m < 2 ^ 53) (he : -1074 ≤ e) (hunit : e = -1074 ∨ 2 ^ 52 ≤ m)
    (hlt' : m' < 2 ^ 53) (he' : -1074 ≤ e') (hunit' : e' = -1074 ∨ 2 ^ 52 ≤ m') :
    (compare e e').then (compare m m') = compare ((m : ℚ) * 2 ^ e) (m' * 2 ^ e') := by
  rcases lt_trichotomy e e' with h | rfl | h
  · rw [compare_lt_iff_lt.2 h, compare_lt_iff_lt.2 (magnitude_lt hlt he hunit' h)]
    rfl
  · rw [compare_eq_iff_eq.2 (rfl : e = e)]
    have hpos := two_zpow_pos e
    show compare m m' = _
    rcases lt_trichotomy m m' with h | rfl | h
    · rw [compare_lt_iff_lt.2 h, compare_lt_iff_lt.2]
      exact mul_lt_mul_of_pos_right (by exact_mod_cast h) hpos
    · rw [compare_eq_iff_eq.2 (rfl : m = m), compare_eq_iff_eq.2 rfl]
    · rw [compare_gt_iff_gt.2 h, compare_gt_iff_gt.2]
      exact mul_lt_mul_of_pos_right (by exact_mod_cast h) hpos
  · rw [compare_gt_iff_gt.2 h, compare_gt_iff_gt.2 (magnitude_lt hlt' he' hunit h)]
    rfl

end Magnitudes

theorem magnitude_pos {m : ℕ} (hm : 0 < m) (e : ℤ) : (0 : ℚ) < m * 2 ^ e :=
  mul_pos (by exact_mod_cast hm) (two_zpow_pos e)

theorem compare_eq (hf : Canonical f) (hg : Canonical g) :
    f.compare g = some (compare (unpackedValue f) (unpackedValue g)) := by
  cases hf with
  | zero s =>
    cases hg with
    | zero s' => exact congrArg some (compare_eq_iff_eq.2 rfl).symm
    | @finite s' m' e' hm' _ _ _ =>
      have hpos := magnitude_pos hm' e'
      cases s' with
      | negative => exact congrArg some (compare_gt_iff_gt.2 (neg_lt_zero.2 hpos)).symm
      | positive => exact congrArg some (compare_lt_iff_lt.2 hpos).symm
  | @finite s m e hm hlt he hunit =>
    have hpos := magnitude_pos hm e
    cases hg with
    | zero s' =>
      cases s with
      | negative => exact congrArg some (compare_lt_iff_lt.2 (neg_lt_zero.2 hpos)).symm
      | positive => exact congrArg some (compare_gt_iff_gt.2 hpos).symm
    | @finite s' m' e' hm' hlt' he' hunit' =>
      have hpos' := magnitude_pos hm' e'
      have hmagnitudes := compare_magnitudes hlt he hunit hlt' he' hunit'
      cases s <;> cases s' <;> refine congrArg some ?_
      · rw [hmagnitudes, unpackedValue_finite, unpackedValue_finite]
        exact (compare_neg_neg _ _).symm
      · exact (compare_lt_iff_lt.2 ((neg_lt_zero.2 hpos).trans hpos')).symm
      · exact (compare_gt_iff_gt.2 ((neg_lt_zero.2 hpos').trans hpos)).symm
      · exact hmagnitudes

theorem lt_iff (hf : Canonical f) (hg : Canonical g) :
    f.lt g = true ↔ unpackedValue f < unpackedValue g := by
  rw [UnpackedFloat.lt, compare_eq hf hg, beq_iff_eq, Option.some.injEq, compare_lt_iff_lt]

theorem le_iff (hf : Canonical f) (hg : Canonical g) :
    f.le g = true ↔ unpackedValue f ≤ unpackedValue g := by
  rw [UnpackedFloat.le, compare_eq hf hg, Option.any_some, Ordering.isLE_iff_ne_gt,
    compare_gt_iff_gt, not_lt]

/-! ## Infinity -/

theorem add_infinity (hf : Canonical f) (s : Sign) :
    UnpackedFloat.add .binary64 f (.infinity s) = .infinity s := by
  cases hf <;> rfl

theorem infinity_add (s : Sign) (hg : Canonical g) :
    UnpackedFloat.add .binary64 (.infinity s) g = .infinity s := by
  cases hg <;> rfl

theorem infinity_div (hg : Canonical g) (hpos : 0 < unpackedValue g) :
    UnpackedFloat.div .binary64 (.infinity .positive) g = .infinity .positive := by
  cases hg with
  | zero s' => exact absurd hpos (lt_irrefl 0)
  | @finite s' m' e' hm' _ _ _ =>
    cases s' with
    | negative => exact absurd hpos (neg_lt_zero.2 (magnitude_pos hm' e')).not_gt
    | positive => rfl

theorem le_infinity (hf : Canonical f) : f.le (.infinity .positive) = true := by
  cases hf <;> rfl

/-! ## Truncation -/

theorem toNat_roundToInt_le (s : Sign) (m : ℕ) (e : ℤ) :
    (((roundToInt s m e).toNat : ℕ) : ℚ) ≤ max (signed s (m * 2 ^ e)) 0 := by
  obtain ⟨k, hk⟩ : ∃ k, k = (e - 0).toNat := ⟨_, rfl⟩
  obtain ⟨k', hk'⟩ : ∃ k', k' = (0 - (e - k)).toNat := ⟨_, rfl⟩
  have hround : roundToInt s m e =
      s.apply (ExtendedMantissa.ofMantissaAndAccuracy (m <<< k) .exact >>> k').mantissa := by
    rw [hk', hk]
    rfl
  have hvalue : ((m <<< k : ℕ) : ℚ) / 2 ^ k' = m * 2 ^ e := by
    have he : e = k - k' := by omega
    rw [he, zpow_sub₀ two_ne_zero, zpow_natCast, zpow_natCast, Nat.shiftLeft_eq, Nat.cast_mul,
      Nat.cast_pow, Nat.cast_ofNat, mul_div_assoc]
  have hle := ((represents_exact (m <<< k)).shiftRight k').mantissa_le
  rw [hvalue] at hle
  rw [hround]
  cases s with
  | negative =>
    rw [Sign.apply, Int.toNat_of_nonpos (by omega)]
    exact le_max_right _ _
  | positive => exact hle.trans (le_max_left _ _)

theorem toNat_toInt_le (hf : Canonical f) (n : ℤ) :
    (((f.toInt 0 n).toNat : ℕ) : ℚ) ≤ max (unpackedValue f) 0 := by
  cases hf with
  | zero s => exact le_max_right _ _
  | finite s hm => exact toNat_roundToInt_le s _ _

end Ordinate.Double

import Ordinate.Number.Shortest
import Ordinate.Proofs.Number.Rounding

/-!
# Shortest decimals read back

* `Decimal.toRat_value` : the rational number which a decimal denotes;
* `Magnitude.rounds_shortest` : the shortest decimal of a magnitude rounds to it;
* `Decimal.nearestWord_of_rounds` : a decimal which rounds to a magnitude has its word, so none of
  the bounds which spare a power of ten comes in between.
-/

namespace Ordinate

/-! ## Decimals as rational numbers -/

namespace Decimal

theorem toRat_value (d : Decimal) : d.value.toRat = d.digits * 10 ^ d.exponent := by
  rw [value, Fraction.toRat_timesPow, Fraction.toRat_ofNat, Nat.cast_ofNat]

theorem toRat_value_normalize (d : Decimal) : d.normalize.value.toRat = d.value.toRat := by
  fun_induction normalize d with
  | case1 d h ih =>
    have hdigits : d.digits = 10 * (d.digits / 10) :=
      (Nat.mul_div_cancel' (Nat.dvd_of_mod_eq_zero h.2)).symm
    rw [ih, toRat_value, toRat_value, zpow_add_one₀ (by norm_num)]
    conv_rhs => rw [hdigits]
    push_cast
    ring
  | case2 d h => rfl

end Decimal

namespace Magnitude

variable {m : Magnitude}

theorem toRat_value_exact (m : Magnitude) : m.exact.value.toRat = m.value.toRat := by
  rw [toRat_value, Decimal.toRat_value, exact]
  split
  · next h =>
    obtain ⟨n, hn⟩ := Int.eq_ofNat_of_zero_le h
    rw [hn]
    simp [Nat.pow_eq]
  · next h =>
    obtain ⟨n, hn⟩ := Int.exists_eq_neg_ofNat (not_le.1 h).le
    have hten : (10 : ℚ) ^ n = 5 ^ n * 2 ^ n := by rw [← mul_pow]; norm_num
    rw [hn, neg_neg, Int.toNat_natCast, Nat.pow_eq, zpow_neg, zpow_neg, zpow_natCast, zpow_natCast,
      hten]
    push_cast
    field_simp

theorem rounds_of_onGrid {exponent : Int} {d : Decimal} (h : m.onGrid exponent = some d) :
    m.rounds d.value := by
  unfold onGrid at h
  dsimp only at h
  split at h
  · next hlower hupper =>
    cases h
    split
    · exact hlower
    · exact hupper
  · next hlower _ =>
    cases h
    exact hlower
  · next _ hupper =>
    cases h
    exact hupper
  · cases h

/-- The shortest decimal of a magnitude other than zero rounds to it: it was found as such a
decimal, or it has all digits of the magnitude. -/
theorem rounds_shortest (hm : m.significand ≠ 0) : m.rounds m.shortest.value := by
  rw [shortest, if_neg hm]
  refine rounds_congr (Decimal.toRat_value_normalize _).symm ?_
  cases hfound : (List.range' 1 17).findSome? fun digits : Nat =>
      m.onGrid (m.value.decimalScale - digits) with
  | none => exact rounds_congr m.toRat_value_exact.symm (rounds_value hm)
  | some d =>
    obtain ⟨digits, -, hd⟩ := List.exists_of_findSome?_eq_some hfound
    exact rounds_of_onGrid hd

end Magnitude

/-! ## Words of decimals -/

namespace Decimal

variable {d : Decimal}

theorem two_zpow_1024_lt : (2 : ℚ) ^ (1024 : Int) < 10 ^ (311 : Int) := by
  have h : 2 ^ 1024 < 10 ^ 311 := by decide +kernel
  exact_mod_cast h

theorem ten_zpow_lt : (10 : ℚ) ^ (-331 : Int) < 2 ^ (-1075 : Int) := by
  have h : 2 ^ 1075 < 10 ^ 331 := by decide +kernel
  rw [zpow_neg, zpow_neg]
  refine inv_strictAnti₀ (by positivity) ?_
  exact_mod_cast h

theorem lt_of_isHuge (h : d.isHuge) (hd : d.digits ≠ 0) :
    (2 : ℚ) ^ (1024 : Int) < d.value.toRat := by
  have hexponent : (311 : Int) ≤ (d.digits.log2 / 4 : Nat) + d.exponent := of_decide_eq_true h
  have hdigits : 10 ^ (d.digits.log2 / 4) ≤ d.digits :=
    calc 10 ^ (d.digits.log2 / 4) ≤ 16 ^ (d.digits.log2 / 4) := Nat.pow_le_pow_left (by decide) _
      _ = 2 ^ (4 * (d.digits.log2 / 4)) := by rw [Nat.pow_mul]
      _ ≤ 2 ^ d.digits.log2 := Nat.pow_le_pow_right (by decide) (Nat.mul_div_le _ 4)
      _ ≤ d.digits := Nat.log2_self_le hd
  rw [toRat_value]
  calc (2 : ℚ) ^ (1024 : Int) < 10 ^ (311 : Int) := two_zpow_1024_lt
    _ ≤ 10 ^ ((d.digits.log2 / 4 : Nat) + d.exponent) :=
        zpow_le_zpow_right₀ (by norm_num) hexponent
    _ = (10 ^ (d.digits.log2 / 4) : Nat) * 10 ^ d.exponent := by
        rw [zpow_add₀ (by norm_num), zpow_natCast]
        norm_cast
    _ ≤ d.digits * 10 ^ d.exponent :=
        mul_le_mul_of_nonneg_right (Nat.cast_le.2 hdigits) (by positivity)

theorem lt_of_isTiny (h : d.isTiny) : d.value.toRat < (2 : ℚ) ^ (-1075 : Int) := by
  have hexponent : ((d.digits.log2 / 3 + 1 : Nat) : Int) + d.exponent ≤ -331 :=
    Int.le_sub_one_of_lt (of_decide_eq_true h)
  have hdigits : d.digits < 10 ^ (d.digits.log2 / 3 + 1) :=
    calc d.digits < 2 ^ (d.digits.log2 + 1) := Nat.lt_log2_self
      _ ≤ 2 ^ (3 * (d.digits.log2 / 3 + 1)) := Nat.pow_le_pow_right (by decide) (by omega)
      _ = 8 ^ (d.digits.log2 / 3 + 1) := by rw [Nat.pow_mul]
      _ ≤ 10 ^ (d.digits.log2 / 3 + 1) := Nat.pow_le_pow_left (by decide) _
  rw [toRat_value]
  calc d.digits * (10 : ℚ) ^ d.exponent
      < (10 ^ (d.digits.log2 / 3 + 1) : Nat) * 10 ^ d.exponent :=
        mul_lt_mul_of_pos_right (Nat.cast_lt.2 hdigits) (by positivity)
    _ = 10 ^ (((d.digits.log2 / 3 + 1 : Nat) : Int) + d.exponent) := by
        rw [zpow_add₀ (by norm_num), zpow_natCast]
        norm_cast
    _ ≤ 10 ^ (-331 : Int) := zpow_le_zpow_right₀ (by norm_num) hexponent
    _ < 2 ^ (-1075 : Int) := ten_zpow_lt

theorem nearestWord_of_rounds {exponent fraction : Nat} (he : exponent < 2047)
    (hf : fraction < 2 ^ 52) (hm : (Magnitude.ofFields exponent fraction).significand ≠ 0)
    (h : (Magnitude.ofFields exponent fraction).rounds d.value) :
    d.nearestWord = exponent * 2 ^ 52 + fraction := by
  have hexponent : -1074 ≤ (Magnitude.ofFields exponent fraction).exponent ∧
      (Magnitude.ofFields exponent fraction).exponent ≤ 971 := by
    unfold Magnitude.ofFields
    split <;> constructor <;> simp only <;> omega
  have hhigh : d.value.toRat < 2 ^ (1024 : Int) :=
    (lt_of_rounds hf h).trans_le (zpow_le_zpow_right₀ one_le_two (by omega))
  have hlow : (2 : ℚ) ^ (-1075 : Int) ≤ d.value.toRat := by
    refine le_trans ?_ (Magnitude.rounds_bounds h).1
    rw [Magnitude.toRat_lowerEnd hm]
    have hone : (1 : ℚ) ≤ (Magnitude.ofFields exponent fraction).significand :=
      Nat.one_le_cast.2 (Nat.one_le_iff_ne_zero.2 hm)
    calc (2 : ℚ) ^ (-1075 : Int) = 1 / 2 * 2 ^ (-1074 : Int) := by
          rw [show (-1075 : Int) = -1 + -1074 by rfl, zpow_add₀ two_ne_zero, zpow_neg_one, one_div]
      _ ≤ 1 / 2 * 2 ^ (Magnitude.ofFields exponent fraction).exponent :=
          mul_le_mul_of_nonneg_left (zpow_le_zpow_right₀ one_le_two hexponent.1) (by norm_num)
      _ ≤ _ := by
          refine mul_le_mul_of_nonneg_right ?_ (by positivity)
          split <;> linarith
  have hdigits : d.digits ≠ 0 := by
    intro hzero
    have hpos := Magnitude.toRat_pos_of_rounds hm h
    rw [toRat_value, hzero, Nat.cast_zero, zero_mul] at hpos
    exact lt_irrefl _ hpos
  rw [nearestWord, if_neg hdigits, if_neg fun hhuge => (lt_of_isHuge hhuge hdigits).not_gt hhigh,
    if_neg fun htiny => (lt_of_isTiny htiny).not_ge hlow]
  exact Ordinate.nearestWord_of_rounds he hf hm h

end Decimal

end Ordinate

import Mathlib.Tactic.NormNum
import Mathlib.Tactic.Positivity
import Ordinate.Number.Nearest
import Ordinate.Proofs.Number.Ratio

/-!
# Rounding to doubles

* `Magnitude.toRat_lowerEnd`, `Magnitude.toRat_upperEnd` : the ends of the interval of numbers which
  round to a magnitude;
* `Magnitude.rounds_bounds`, `Magnitude.rounds_of_lt` : membership in that interval;
* `nearestWord_of_unit` : the nearest word of a fraction from its unit and its nearest multiple of
  it;
* `nearestWord_of_rounds` : what lies in a magnitude's interval has that magnitude's word.
-/

namespace Ordinate

/-! ## The numbers around a magnitude -/

namespace Magnitude

variable {m : Magnitude} {f g : Fraction}

theorem toRat_value (m : Magnitude) : m.value.toRat = m.significand * 2 ^ m.exponent := by
  rw [value, Fraction.toRat_timesPow, Fraction.toRat_ofNat, Nat.cast_ofNat]

theorem two_zpow_sub_two (e : Int) : (2 : ℚ) ^ (e - 2) = 2 ^ e / 4 := by
  rw [zpow_sub₀ two_ne_zero]
  norm_num

theorem toRat_upperEnd (m : Magnitude) :
    m.upperEnd.toRat = (m.significand + 1 / 2) * 2 ^ m.exponent := by
  rw [upperEnd, Fraction.toRat_timesPow, Fraction.toRat_ofNat, Nat.cast_ofNat, two_zpow_sub_two]
  push_cast
  ring

theorem toRat_lowerEnd (hm : m.significand ≠ 0) :
    m.lowerEnd.toRat =
      (m.significand - if m.narrowBelow then 1 / 4 else 1 / 2) * 2 ^ m.exponent := by
  have hle : (if m.narrowBelow then 1 else 2) ≤ 4 * m.significand := by
    split <;> omega
  rw [lowerEnd, Fraction.toRat_timesPow, Fraction.toRat_ofNat, Nat.cast_ofNat, two_zpow_sub_two,
    Nat.cast_sub hle]
  split <;> push_cast <;> ring

theorem rounds_bounds (h : m.rounds f) :
    m.lowerEnd.toRat ≤ f.toRat ∧ f.toRat ≤ m.upperEnd.toRat ∧
      (m.significand % 2 = 1 → m.lowerEnd.toRat < f.toRat ∧ f.toRat < m.upperEnd.toRat) := by
  unfold rounds at h
  split at h
  · next heven =>
    obtain ⟨hlow, hhigh⟩ := Bool.and_eq_true_iff.1 h
    exact ⟨Fraction.le_iff.1 hlow, Fraction.le_iff.1 hhigh, fun hodd => by omega⟩
  · obtain ⟨hlow, hhigh⟩ := Bool.and_eq_true_iff.1 h
    have hlow := Fraction.lt_iff.1 hlow
    have hhigh := Fraction.lt_iff.1 hhigh
    exact ⟨hlow.le, hhigh.le, fun _ => ⟨hlow, hhigh⟩⟩

theorem rounds_of_lt (hlow : m.lowerEnd.toRat < f.toRat) (hhigh : f.toRat < m.upperEnd.toRat) :
    m.rounds f := by
  unfold rounds
  split
  · exact Bool.and_eq_true_iff.2 ⟨Fraction.le_iff.2 hlow.le, Fraction.le_iff.2 hhigh.le⟩
  · exact Bool.and_eq_true_iff.2 ⟨Fraction.lt_iff.2 hlow, Fraction.lt_iff.2 hhigh⟩

theorem rounds_congr (h : f.toRat = g.toRat) (hf : m.rounds f) : m.rounds g := by
  unfold rounds at hf ⊢
  split at hf <;> rename_i hparity
  · rw [if_pos hparity]
    rwa [Bool.and_eq_true, Fraction.le_iff, Fraction.le_iff, h, ← Fraction.le_iff,
      ← Fraction.le_iff, ← Bool.and_eq_true] at hf
  · rw [if_neg hparity]
    rwa [Bool.and_eq_true, Fraction.lt_iff, Fraction.lt_iff, h, ← Fraction.lt_iff,
      ← Fraction.lt_iff, ← Bool.and_eq_true] at hf

theorem rounds_value (hm : m.significand ≠ 0) : m.rounds m.value := by
  have hunit : (0 : ℚ) < 2 ^ m.exponent := by positivity
  apply rounds_of_lt
  · rw [toRat_value, toRat_lowerEnd hm]
    refine mul_lt_mul_of_pos_right ?_ hunit
    split <;> linarith
  · rw [toRat_value, toRat_upperEnd]
    exact mul_lt_mul_of_pos_right (by linarith) hunit

theorem toRat_pos_of_rounds (hm : m.significand ≠ 0) (h : m.rounds f) : 0 < f.toRat := by
  have hone : (1 : ℚ) ≤ m.significand := Nat.one_le_cast.2 (Nat.one_le_iff_ne_zero.2 hm)
  refine lt_of_lt_of_le ?_ (rounds_bounds h).1
  rw [toRat_lowerEnd hm]
  refine mul_pos ?_ (by positivity)
  split <;> linarith

end Magnitude

/-! ## Words -/

theorem nearestEven_timesPow {f : Fraction} {e : Int} {n : Nat}
    (hlow : ((n : ℚ) - 1 / 2) * 2 ^ e ≤ f.toRat) (hhigh : f.toRat ≤ (n + 1 / 2) * 2 ^ e)
    (hodd : n % 2 = 1 → ((n : ℚ) - 1 / 2) * 2 ^ e < f.toRat ∧ f.toRat < (n + 1 / 2) * 2 ^ e) :
    (f.timesPow Nat.two_pos (-e)).nearestEven = n := by
  have hunit : (0 : ℚ) < 2 ^ e := by positivity
  have hscaled : (f.timesPow Nat.two_pos (-e)).toRat = f.toRat / 2 ^ e := by
    rw [Fraction.toRat_timesPow, Nat.cast_ofNat, zpow_neg, div_eq_mul_inv]
  apply Fraction.nearestEven_eq
  · rwa [hscaled, le_div_iff₀ hunit]
  · rwa [hscaled, div_le_iff₀ hunit]
  · rwa [hscaled, lt_div_iff₀ hunit, div_lt_iff₀ hunit]

/-- A fraction whose unit is `2 ^ e`, and which is nearest to `n` units, has the word in which `n`
carries into the exponent field. -/
theorem nearestWord_of_unit {f : Fraction} {e : Int} {n : Nat} (he : -1074 ≤ e)
    (hpos : 0 < f.toRat) (hunit : e = -1074 ∨ (2 : ℚ) ^ (e + 52) ≤ f.toRat)
    (htop : f.toRat < 2 ^ (e + 53)) (hlow : ((n : ℚ) - 1 / 2) * 2 ^ e ≤ f.toRat)
    (hhigh : f.toRat ≤ (n + 1 / 2) * 2 ^ e)
    (hodd : n % 2 = 1 → ((n : ℚ) - 1 / 2) * 2 ^ e < f.toRat ∧ f.toRat < (n + 1 / 2) * 2 ^ e) :
    nearestWord f = min ((e + 1074).toNat * 2 ^ 52 + n) infinityWord := by
  have hnum : f.num ≠ 0 := Fraction.toRat_pos_iff.1 hpos
  have hle : f.floorLog2 < e + 53 := by
    have := (Fraction.floorLog2_le hnum).trans_lt htop
    rwa [zpow_lt_zpow_iff_right₀ one_lt_two] at this
  have hexponent : max (f.floorLog2 - 52) (-1074) = e := by
    rcases hunit with rfl | hunit
    · omega
    · have := hunit.trans_lt f.lt_floorLog2
      rw [zpow_lt_zpow_iff_right₀ one_lt_two] at this
      omega
  rw [nearestWord, if_neg hnum]
  dsimp only
  rw [hexponent, nearestEven_timesPow hlow hhigh hodd]
  rfl

/-! ## The fields of a word -/

section Fields

variable {exponent fraction : Nat} {f : Fraction}

theorem significand_lt (exponent : Nat) (hf : fraction < 2 ^ 52) :
    (Magnitude.ofFields exponent fraction).significand < 2 ^ 53 := by
  unfold Magnitude.ofFields
  split <;> simp only [Nat.pow_eq] <;> omega

theorem two_zpow_add (e : Int) (n : Nat) : (2 : ℚ) ^ (e + n) = (2 ^ n : Nat) * 2 ^ e := by
  rw [zpow_add₀ two_ne_zero, zpow_natCast, mul_comm]
  norm_cast

/-- What rounds to a magnitude is below the power of two above it: the greatest significand is odd,
and so its interval does not have its end. -/
theorem lt_of_rounds (hf : fraction < 2 ^ 52)
    (h : (Magnitude.ofFields exponent fraction).rounds f) :
    f.toRat < 2 ^ ((Magnitude.ofFields exponent fraction).exponent + 53) := by
  have hlt := significand_lt exponent hf
  generalize Magnitude.ofFields exponent fraction = m at h hlt
  have hunit : (0 : ℚ) < 2 ^ m.exponent := by positivity
  obtain ⟨-, hhigh, hodd⟩ := Magnitude.rounds_bounds h
  rw [m.toRat_upperEnd] at hhigh hodd
  refine lt_of_lt_of_eq ?_ (two_zpow_add m.exponent 53).symm
  obtain hlt | heq : m.significand + 1 < 2 ^ 53 ∨ m.significand + 1 = 2 ^ 53 := by omega
  · refine hhigh.trans_lt (mul_lt_mul_of_pos_right ?_ hunit)
    have : ((m.significand + 1 : Nat) : ℚ) < (2 ^ 53 : Nat) := Nat.cast_lt.2 hlt
    push_cast at this ⊢
    linarith
  · refine (hodd (by omega)).2.trans_le (mul_le_mul_of_nonneg_right ?_ hunit.le)
    rw [← heq, Nat.cast_succ]
    linarith

/-- Below the least magnitude of an exponent, where units are half as long, what rounds to it
carries. -/
theorem nearestWord_of_narrow {e : Int} (he : -1073 ≤ e)
    (hlow : (((2 ^ 52 : Nat) : ℚ) - 1 / 4) * 2 ^ e ≤ f.toRat) (hhigh : f.toRat < 2 ^ (e + 52)) :
    nearestWord f = min ((e - 1 + 1074).toNat * 2 ^ 52 + 2 ^ 53) infinityWord := by
  have hunit : (0 : ℚ) < 2 ^ e := by positivity
  have hhalf : (2 : ℚ) ^ (e - 1) = 2 ^ e / 2 := zpow_sub_one₀ two_ne_zero e
  have hbelow : (2 : ℚ) ^ (e - 1 + 52) = (2 ^ 52 : Nat) * (2 ^ e / 2) :=
    hhalf ▸ two_zpow_add (e - 1) 52
  have hhigh' : f.toRat < (2 ^ 52 : Nat) * 2 ^ e := hhigh.trans_eq (two_zpow_add e 52)
  push_cast at hlow hbelow hhigh'
  refine nearestWord_of_unit (by omega) ?_ (.inr ?_) ?_ ?_ ?_ ?_
  · exact lt_of_lt_of_le (mul_pos (by norm_num) hunit) hlow
  · rw [hbelow]
    linarith
  · rwa [show e - 1 + 53 = e + 52 by omega]
  · rw [hhalf]
    push_cast
    linarith
  · rw [hhalf]
    push_cast
    linarith
  · exact fun hodd => absurd hodd (by decide)

/-- What lies in the interval of a magnitude has the word of that magnitude. -/
theorem nearestWord_of_rounds (he : exponent < 2047) (hf : fraction < 2 ^ 52)
    (hm : (Magnitude.ofFields exponent fraction).significand ≠ 0)
    (h : (Magnitude.ofFields exponent fraction).rounds f) :
    nearestWord f = exponent * 2 ^ 52 + fraction := by
  have hpos := Magnitude.toRat_pos_of_rounds hm h
  have htop := lt_of_rounds hf h
  obtain ⟨hlow, hhigh, hodd⟩ := Magnitude.rounds_bounds h
  rw [Magnitude.toRat_lowerEnd hm] at hlow hodd
  rw [Magnitude.toRat_upperEnd] at hhigh hodd
  have hinfinity : infinityWord = 2047 * 2 ^ 52 := rfl
  unfold Magnitude.ofFields at htop hlow hhigh hodd
  simp only [Nat.pow_eq] at htop hlow hhigh hodd
  by_cases hzero : exponent = 0
  · simp only [hzero, if_true, Bool.false_eq_true, if_false] at htop hlow hhigh hodd
    rw [nearestWord_of_unit le_rfl hpos (.inl rfl) htop hlow hhigh hodd, hinfinity]
    omega
  simp only [hzero, if_false] at htop hlow hhigh hodd
  set e : Int := exponent - 1075 with hexponent
  have hunit : (0 : ℚ) < 2 ^ e := by positivity
  have hleast : (2 : ℚ) ^ (e + 52) = (2 ^ 52 : Nat) * 2 ^ e := two_zpow_add e 52
  by_cases hnarrow : fraction = 0 ∧ 1 < exponent
  · simp only [hnarrow, decide_true, Bool.and_true, if_true, Nat.add_zero] at hlow hhigh hodd
    by_cases hbelow : f.toRat < 2 ^ (e + 52)
    · rw [nearestWord_of_narrow (by omega) hlow hbelow, hinfinity]
      omega
    · rw [not_lt, hleast] at hbelow
      rw [nearestWord_of_unit (by omega) hpos (.inr (hleast ▸ hbelow)) htop ?_ hhigh ?_, hinfinity]
      · omega
      · linarith
      · exact fun hparity => absurd hparity (by decide)
  · have hwide : (decide (fraction = 0) && decide (1 < exponent)) = false := by
      simpa using hnarrow
    simp only [hwide, Bool.false_eq_true, if_false] at hlow hhigh hodd
    rw [nearestWord_of_unit (by omega) hpos ?_ htop hlow hhigh hodd, hinfinity]
    · omega
    · obtain hone | hfraction : exponent = 1 ∨ 1 ≤ fraction := by omega
      · exact .inl (by omega)
      · refine .inr (le_trans ?_ hlow)
        rw [hleast]
        refine mul_le_mul_of_nonneg_right ?_ hunit.le
        have : (1 : ℚ) ≤ fraction := Nat.one_le_cast.2 hfraction
        push_cast
        linarith

end Fields

end Ordinate

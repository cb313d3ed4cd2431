import Mathlib.Algebra.Order.Field.Basic
import Mathlib.Algebra.Order.Field.Power
import Mathlib.Algebra.Order.Ring.Rat
import Mathlib.Data.Rat.Cast.Order
import Mathlib.Tactic.FieldSimp
import Mathlib.Tactic.Linarith
import Mathlib.Tactic.Ring
import Ordinate.Number.Fraction

/-!
# Fractions as rational numbers

* `Fraction.toRat` : the rational number which a fraction denotes; `Fraction.toRat_timesPow`,
  `Fraction.lt_iff`, `Fraction.le_iff` say what the operations on fractions do to it;
* `Fraction.nearestEven_eq` : a whole number is the nearest one if the fraction is within a half of
  it, and strictly within where the whole number is odd;
* `Fraction.floorLog2_le`, `Fraction.lt_floorLog2` : the powers of two around a fraction.
-/

namespace Ordinate.Fraction

def toRat (f : Fraction) : ℚ :=
  f.num / f.den

theorem den_cast_pos (f : Fraction) : (0 : ℚ) < f.den :=
  Nat.cast_pos.2 f.den_pos

@[simp] theorem toRat_ofNat (n : Nat) : (ofNat n).toRat = n := by
  rw [toRat, ofNat, Nat.cast_one, div_one]

theorem toRat_timesPow (f : Fraction) {b : Nat} (hb : 0 < b) (e : Int) :
    (f.timesPow hb e).toRat = f.toRat * (b : ℚ) ^ e := by
  have hb' : (b : ℚ) ≠ 0 := Nat.cast_ne_zero.2 hb.ne'
  have hpow : ∀ n : Nat, ((b.pow n : Nat) : ℚ) = (b : ℚ) ^ n := fun n => Nat.cast_pow b n
  rw [toRat, toRat, timesPow, Nat.cast_mul, Nat.cast_mul, hpow, hpow]
  rcases Int.le_total 0 e with he | he
  · lift e to Nat using he
    simp [div_mul_eq_mul_div]
  · obtain ⟨n, rfl⟩ := Int.exists_eq_neg_ofNat he
    simp [div_eq_mul_inv, mul_assoc, mul_comm (b ^ n : ℚ)⁻¹]

theorem lt_iff {f g : Fraction} : f.lt g = true ↔ f.toRat < g.toRat := by
  rw [lt, decide_eq_true_eq, toRat, toRat, div_lt_div_iff₀ f.den_cast_pos g.den_cast_pos]
  exact_mod_cast Iff.rfl

theorem le_iff {f g : Fraction} : f.le g = true ↔ f.toRat ≤ g.toRat := by
  rw [le, decide_eq_true_eq, toRat, toRat, div_le_div_iff₀ f.den_cast_pos g.den_cast_pos]
  exact_mod_cast Iff.rfl

theorem toRat_pos_iff {f : Fraction} : 0 < f.toRat ↔ f.num ≠ 0 := by
  rw [toRat, div_pos_iff_of_pos_right f.den_cast_pos, Nat.cast_pos, Nat.pos_iff_ne_zero]

/-! ## Rounding to whole numbers -/

/-- A whole number is the nearest one to a fraction within a half of it, and the even one of two
where the fraction is halfway between them. -/
theorem nearestEven_eq {f : Fraction} {n : Nat} (hlow : (n : ℚ) - 1 / 2 ≤ f.toRat)
    (hhigh : f.toRat ≤ n + 1 / 2)
    (hodd : n % 2 = 1 → (n : ℚ) - 1 / 2 < f.toRat ∧ f.toRat < n + 1 / 2) : f.nearestEven = n := by
  have hden := f.den_cast_pos
  have hparts := Nat.div_add_mod f.num f.den
  have hmod := Nat.mod_lt f.num f.den_pos
  -- All bounds are cleared of denominators, and then hold of natural numbers.
  have hlow' : 2 * n * f.den ≤ 2 * f.num + f.den := by
    rw [toRat, le_div_iff₀ hden] at hlow
    have : (2 * n * f.den : ℚ) ≤ 2 * f.num + f.den := by linarith
    exact_mod_cast this
  have hhigh' : 2 * f.num ≤ 2 * n * f.den + f.den := by
    rw [toRat, div_le_iff₀ hden] at hhigh
    have : (2 * f.num : ℚ) ≤ 2 * n * f.den + f.den := by linarith
    exact_mod_cast this
  have hodd' : n % 2 = 1 →
      2 * n * f.den < 2 * f.num + f.den ∧ 2 * f.num < 2 * n * f.den + f.den := by
    intro h
    obtain ⟨h1, h2⟩ := hodd h
    rw [toRat, lt_div_iff₀ hden] at h1
    rw [toRat, div_lt_iff₀ hden] at h2
    have h1' : (2 * n * f.den : ℚ) < 2 * f.num + f.den := by linarith
    have h2' : (2 * f.num : ℚ) < 2 * n * f.den + f.den := by linarith
    exact ⟨by exact_mod_cast h1', by exact_mod_cast h2'⟩
  generalize hq : f.num / f.den = q at hparts
  generalize hr : f.num % f.den = r at hparts hmod
  rw [← hparts] at hlow' hhigh' hodd'
  have hle : q ≤ n := by nlinarith [f.den_pos]
  have hge : n ≤ q + 1 := by nlinarith [f.den_pos]
  rw [nearestEven, floor, hq, hr]
  obtain rfl | rfl : n = q ∨ n = q + 1 := by omega
  · have hrest : 2 * r ≤ f.den := by nlinarith
    split_ifs with h1 h2
    · rfl
    · omega
    · have heven : n % 2 = 0 := by
        by_contra hne
        have := (hodd' (by omega)).2
        have : 2 * r < f.den := by nlinarith
        omega
      omega
  · have hrest : f.den ≤ 2 * r := by nlinarith
    split_ifs with h1 h2
    · omega
    · rfl
    · have heven : (q + 1) % 2 = 0 := by
        by_contra hne
        have := (hodd' (by omega)).1
        have : f.den < 2 * r := by nlinarith
        omega
      omega

/-! ## Powers of two -/

theorem two_zpow_log2_le {n : Nat} (h : n ≠ 0) : (2 : ℚ) ^ (n.log2 : Int) ≤ n := by
  rw [zpow_natCast]
  exact_mod_cast Nat.log2_self_le h

theorem lt_two_zpow_log2 (n : Nat) : (n : ℚ) < (2 : ℚ) ^ (n.log2 + 1 : Int) := by
  rw [← Nat.cast_succ, zpow_natCast]
  exact_mod_cast Nat.lt_log2_self

section

variable {f : Fraction}

theorem two_zpow_lt_of_logs (h : f.num ≠ 0) :
    (2 : ℚ) ^ ((f.num.log2 : Int) - f.den.log2 - 1) < f.toRat := by
  have hnum := two_zpow_log2_le h
  have hden := lt_two_zpow_log2 f.den
  rw [toRat, lt_div_iff₀ f.den_cast_pos]
  calc (2 : ℚ) ^ ((f.num.log2 : Int) - f.den.log2 - 1) * f.den
      < 2 ^ ((f.num.log2 : Int) - f.den.log2 - 1) * 2 ^ (f.den.log2 + 1 : Int) :=
        mul_lt_mul_of_pos_left hden (by positivity)
    _ = 2 ^ (f.num.log2 : Int) := by
        rw [← zpow_add₀ two_ne_zero]
        congr 1
        omega
    _ ≤ f.num := hnum

theorem lt_two_zpow_of_logs : f.toRat < (2 : ℚ) ^ ((f.num.log2 : Int) - f.den.log2 + 1) := by
  have hnum := lt_two_zpow_log2 f.num
  have hden := two_zpow_log2_le f.den_pos.ne'
  rw [toRat, div_lt_iff₀ f.den_cast_pos]
  calc (f.num : ℚ) < 2 ^ (f.num.log2 + 1 : Int) := hnum
    _ = 2 ^ ((f.num.log2 : Int) - f.den.log2 + 1) * 2 ^ (f.den.log2 : Int) := by
        rw [← zpow_add₀ two_ne_zero]
        congr 1
        omega
    _ ≤ 2 ^ ((f.num.log2 : Int) - f.den.log2 + 1) * f.den :=
        mul_le_mul_of_nonneg_left hden (by positivity)

theorem lt_two_zpow_iff {k : Int} :
    f.lt ((ofNat 1).timesPow Nat.two_pos k) = true ↔ f.toRat < 2 ^ k := by
  rw [lt_iff, toRat_timesPow, toRat_ofNat, Nat.cast_one, one_mul, Nat.cast_ofNat]

theorem floorLog2_le (h : f.num ≠ 0) : (2 : ℚ) ^ f.floorLog2 ≤ f.toRat := by
  rw [floorLog2]
  split_ifs with hlt
  · exact (two_zpow_lt_of_logs h).le
  · exact not_lt.1 fun h => hlt (lt_two_zpow_iff.2 h)

theorem lt_floorLog2 (f : Fraction) : f.toRat < (2 : ℚ) ^ (f.floorLog2 + 1) := by
  rw [floorLog2]
  split_ifs with hlt
  · rw [Int.sub_add_cancel]
    exact lt_two_zpow_iff.1 hlt
  · exact lt_two_zpow_of_logs

end

end Ordinate.Fraction

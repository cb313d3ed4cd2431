import Mathlib
import Ordinate.Proofs.Double.Nearest

/-!
# Rounding of unpacked doubles

* `Double.Represents` : the number which a mantissa and its two residual bits stand for;
  `Double.Represents.shiftRight` and `Double.Represents.abs_roundedMantissa_sub_le` say what a shift
  and rounding do to it;
* `Double.Canonical` : an unpacked double with its right exponent, and `Double.unpackedValue` what it
  denotes;
* `Double.RoundedTo` : an unpacked double is a number, rounded to a nearest value;
* `Double.roundedTo_roundWithAccuracy`, `Double.roundedTo_normalize` : such are the results of
  rounding.
-/

namespace Ordinate.Double

open Float.Model Float.Model.UnpackedFloat

/-! ## Mantissas with residual bits -/

/-- The mantissa is the whole part of `x`, the round bit is set if the rest is at least a half, and
without the sticky bit there is no more than that. -/
structure Represents (em : ExtendedMantissa) (x : ℚ) : Prop where
  mantissa_le : (em.mantissa : ℚ) ≤ x
  lt_mantissa_add_one : x < em.mantissa + 1
  roundBit_iff : em.roundBit = true ↔ (em.mantissa : ℚ) + 1 / 2 ≤ x
  eq_or_eq : em.stickyBit = false → x = em.mantissa ∨ x = em.mantissa + 1 / 2

section Represents

variable {em : ExtendedMantissa} {x : ℚ}

theorem Represents.eq_mantissa (h : Represents em x) (hround : em.roundBit = false)
    (hsticky : em.stickyBit = false) : x = em.mantissa := by
  obtain heq | heq := h.eq_or_eq hsticky
  · exact heq
  · rw [h.roundBit_iff.2 heq.ge] at hround
    cases hround

theorem Represents.shiftRightOne (h : Represents em x) : Represents em.shiftRightOne (x / 2) := by
  have hexact : (em.roundBit || em.stickyBit) = false → x = em.mantissa := by
    intro hbits
    rw [Bool.or_eq_false_iff] at hbits
    exact h.eq_mantissa hbits.1 hbits.2
  have hle := h.mantissa_le
  have hlt := h.lt_mantissa_add_one
  obtain ⟨k, hk | hk⟩ := Nat.even_or_odd' em.mantissa
  · have hhalf : em.shiftRightOne.mantissa = k := by
      show em.mantissa / 2 = k
      omega
    have hround : em.shiftRightOne.roundBit = false := by
      show (em.mantissa % 2 != 0) = false
      rw [hk, Nat.mul_mod_right]
      rfl
    rw [hk] at hexact hle hlt
    push_cast at hexact hle hlt
    refine ⟨?_, ?_, ?_, fun hsticky => .inl ?_⟩ <;> rw [hhalf]
    · linarith
    · linarith
    · rw [hround]
      exact iff_of_false nofun (by linarith)
    · rw [hexact hsticky]
      ring
  · have hhalf : em.shiftRightOne.mantissa = k := by
      show em.mantissa / 2 = k
      omega
    have hround : em.shiftRightOne.roundBit = true := by
      show (em.mantissa % 2 != 0) = true
      rw [hk, Nat.mul_add_mod]
      rfl
    rw [hk] at hexact hle hlt
    push_cast at hexact hle hlt
    refine ⟨?_, ?_, ?_, fun hsticky => .inr ?_⟩ <;> rw [hhalf]
    · linarith
    · linarith
    · rw [hround]
      exact iff_of_true rfl (by linarith)
    · rw [hexact hsticky]
      ring

theorem Represents.shiftRight (h : Represents em x) (n : ℕ) : Represents (em >>> n) (x / 2 ^ n) := by
  induction n with
  | zero =>
    rw [pow_zero, div_one]
    exact h
  | succ n ih =>
    rw [pow_succ, ← div_div]
    exact ih.shiftRightOne

/-- Rounding goes to a nearest whole number. -/
theorem Represents.abs_roundedMantissa_sub_le (h : Represents em x) :
    |(em.roundedMantissa : ℚ) - x| ≤ 1 / 2 := by
  have heq := h.eq_mantissa
  obtain ⟨m, round, sticky⟩ := em
  obtain ⟨hle, hlt, hround, hor⟩ := h
  dsimp only at hle hlt hround hor heq
  rw [abs_le]
  cases round with
  | false =>
    have hbelow : x < m + 1 / 2 := not_le.1 fun h => nomatch hround.2 h
    have hrounded : ExtendedMantissa.roundedMantissa ⟨m, false, sticky⟩ = m := by
      cases sticky <;> rfl
    rw [hrounded]
    constructor <;> linarith
  | true =>
    have habove : (m : ℚ) + 1 / 2 ≤ x := hround.1 rfl
    cases sticky with
    | true =>
      have hrounded : ExtendedMantissa.roundedMantissa ⟨m, true, true⟩ = m + 1 := rfl
      rw [hrounded]
      push_cast
      constructor <;> linarith
    | false =>
      have hhalf : x = m + 1 / 2 := by
        obtain heq | heq := hor rfl
        · linarith
        · exact heq
      have hrounded : ExtendedMantissa.roundedMantissa ⟨m, true, false⟩ = m + m % 2 := rfl
      rw [hrounded, hhalf]
      rcases Nat.mod_two_eq_zero_or_one m with hmod | hmod <;> rw [hmod] <;> push_cast <;>
        constructor <;> linarith

@[simp] theorem mantissa_ofMantissaAndAccuracy (m : ℕ) (acc : Accuracy) :
    (ExtendedMantissa.ofMantissaAndAccuracy m acc).mantissa = m := by
  cases acc with
  | exact => rfl
  | inexact order => cases order <;> rfl

theorem represents_exact (m : ℕ) : Represents (.ofMantissaAndAccuracy m .exact) m where
  mantissa_le := le_rfl
  lt_mantissa_add_one := lt_add_one _
  roundBit_iff := by
    refine iff_of_false nofun ?_
    show ¬(m : ℚ) + 1 / 2 ≤ m
    linarith
  eq_or_eq _ := .inl rfl

/-- The quotient of a division and what it leaves stand for the exact quotient. -/
theorem represents_fraction (m : ℕ) {num den : ℕ} (h : num < den) :
    Represents (.ofMantissaAndAccuracy m (accuracyOfFraction num den)) (m + num / den) := by
  have hden : (0 : ℚ) < den := by exact_mod_cast (Nat.zero_le num).trans_lt h
  by_cases hnum : num = 0
  · rw [accuracyOfFraction, if_pos hnum, hnum, Nat.cast_zero, zero_div, add_zero]
    exact represents_exact m
  have hpos : (0 : ℚ) < num / den := div_pos (by exact_mod_cast Nat.pos_of_ne_zero hnum) hden
  have hlt : (num : ℚ) / den < 1 := (div_lt_one hden).2 (by exact_mod_cast h)
  have hhalf : 1 / 2 ≤ (num : ℚ) / den ↔ den ≤ 2 * num := by
    rw [div_le_div_iff₀ two_pos hden, one_mul, mul_comm]
    exact_mod_cast Iff.rfl
  rw [accuracyOfFraction, if_neg hnum]
  cases hcompare : compare (2 * num) den with
  | lt =>
    rw [Nat.compare_eq_lt] at hcompare
    have hbelow : ¬1 / 2 ≤ (num : ℚ) / den := fun hle => absurd (hhalf.1 hle) (by omega)
    refine ⟨?_, ?_, iff_of_false nofun ?_, nofun⟩ <;>
      dsimp only [ExtendedMantissa.ofMantissaAndAccuracy] <;> linarith
  | eq =>
    rw [Nat.compare_eq_eq] at hcompare
    have hexact : (num : ℚ) / den = 1 / 2 := by
      rw [div_eq_div_iff hden.ne' two_ne_zero, one_mul, mul_comm]
      exact_mod_cast hcompare
    refine ⟨?_, ?_, iff_of_true rfl ?_, fun _ => .inr ?_⟩ <;>
      dsimp only [ExtendedMantissa.ofMantissaAndAccuracy] <;> linarith
  | gt =>
    rw [Nat.compare_eq_gt] at hcompare
    have habove : 1 / 2 ≤ (num : ℚ) / den := hhalf.2 hcompare.le
    refine ⟨?_, ?_, iff_of_true rfl ?_, nofun⟩ <;>
      dsimp only [ExtendedMantissa.ofMantissaAndAccuracy] <;> linarith

end Represents

/-! ## Unpacked numbers -/

/-- The number with the magnitude `q` and the given sign. -/
def signed : Sign → ℚ → ℚ
  | .negative, q => -q
  | .positive, q => q

/-- What an unpacked double denotes, if that is a number. -/
def unpackedValue : UnpackedFloat → ℚ
  | .finite s m e _ => signed s (m * 2 ^ e)
  | _ => 0

theorem unpackedValue_zero (s : Sign) : unpackedValue (.zero s) = 0 := rfl

theorem unpackedValue_finite (s : Sign) {m : ℕ} (e : ℤ) (hm : 0 < m) :
    unpackedValue (.finite s m e hm) = signed s (m * 2 ^ e) := rfl

/-- The unpacked double is a number, and has the exponent which the format asks for, however
large. -/
inductive Canonical : UnpackedFloat → Prop
  | zero (s : Sign) : Canonical (.zero s)
  | finite (s : Sign) {m : ℕ} {e : ℤ} (hm : 0 < m) (hlt : m < 2 ^ 53) (he : -1074 ≤ e)
      (hunit : e = -1074 ∨ 2 ^ 52 ≤ m) : Canonical (.finite s m e hm)

/-- The unpacked double is the number `r`, rounded. -/
structure RoundedTo (r : ℚ) (f : UnpackedFloat) : Prop where
  canonical : Canonical f
  nearest : Nearest r (unpackedValue f)

theorem isValue_signed (s : Sign) {q : ℚ} (h : IsValue q) : IsValue (signed s q) := by
  cases s with
  | negative => exact h.neg
  | positive => exact h

theorem Nearest.signed (s : Sign) {q y : ℚ} (h : Nearest q y) :
    Nearest (signed s q) (signed s y) := by
  cases s with
  | negative => exact h.neg
  | positive => exact h

theorem Canonical.isValue {f : UnpackedFloat} (h : Canonical f) : IsValue (unpackedValue f) := by
  cases h with
  | zero s => exact isValue_zero
  | finite s hm hlt he hunit =>
    refine isValue_signed s ⟨_, _, he, ?_, by rw [Int.cast_natCast]⟩
    rw [Nat.abs_cast]
    exact_mod_cast hlt.le

theorem Canonical.isFinite {f : UnpackedFloat} (h : Canonical f) : f.isFinite = true := by
  cases h <;> rfl

theorem Canonical.roundedTo_self {f : UnpackedFloat} (h : Canonical f) :
    RoundedTo (unpackedValue f) f :=
  ⟨h, h.isValue.nearest_self⟩

theorem roundedTo_zero (s : Sign) : RoundedTo 0 (.zero s) :=
  (Canonical.zero s).roundedTo_self

/-! ## Rounding -/

theorem targetExponent_binary64 (e : ℤ) :
    Format.binary64.targetExponent e = max (e - 53) (-1074) := rfl

theorem shiftToTargetExponent_of_lt {n : ℕ} {e : ℤ} (hn : n < 2 ^ 53) (he : -1074 ≤ e) :
    shiftToTargetExponent .binary64 n e .exact = (⟨n, false, false⟩, e) := by
  have hlog : n.log2 ≤ 52 := by
    by_cases hzero : n = 0
    · rw [hzero]
      decide
    · exact Nat.lt_succ_iff.1 ((Nat.log2_lt hzero).2 hn)
  have hshift : (Format.binary64.targetExponent (totalExponent n e) - e).toNat = 0 := by
    rw [targetExponent_binary64, totalExponent]
    omega
  simp only [shiftToTargetExponent, shiftToExponent, hshift]
  simp only [Nat.cast_zero, add_zero]
  rfl

theorem shiftToTargetExponent_of_eq {e : ℤ} (he : -1074 ≤ e) :
    shiftToTargetExponent .binary64 (2 ^ 53) e .exact = (⟨2 ^ 52, false, false⟩, e + 1) := by
  have hshift : (Format.binary64.targetExponent (totalExponent (2 ^ 53) e) - e).toNat = 1 := by
    rw [targetExponent_binary64, totalExponent, Nat.log2_two_pow]
    omega
  simp only [shiftToTargetExponent, shiftToExponent, hshift]
  rfl

section Round

variable {s : Sign} {r : ℚ} {n : ℕ} {e : ℤ}

theorem roundedTo_of_lt (hn : n < 2 ^ 53) (he : -1074 ≤ e) (hunit : e = -1074 ∨ 2 ^ 52 ≤ n)
    (hr : Nearest r (n * 2 ^ e)) :
    RoundedTo (signed s r)
      (if h : n = 0 then .zero s else .finite s n e (Nat.pos_of_ne_zero h)) := by
  split
  · next hzero =>
    refine ⟨.zero s, ?_⟩
    have hvalue : signed s (n * 2 ^ e) = unpackedValue (.zero s) := by
      rw [hzero, Nat.cast_zero, zero_mul]
      cases s <;> simp [signed, unpackedValue]
    exact hvalue ▸ hr.signed s
  · exact ⟨.finite s _ hn he hunit, hr.signed s⟩

/-- A mantissa which has been rounded up to one bit too many loses it. -/
theorem roundedTo_of_eq (he : -1074 ≤ e) (hr : Nearest r (2 ^ 53 * 2 ^ e)) (hpos : 0 < 2 ^ 52) :
    RoundedTo (signed s r) (.finite s (2 ^ 52) (e + 1) hpos) := by
  refine ⟨.finite s _ (by decide) (by omega) (.inr le_rfl), ?_⟩
  have hvalue : ((2 ^ 52 : ℕ) : ℚ) * 2 ^ (e + 1) = 2 ^ 53 * 2 ^ e := by
    rw [show (2 : ℚ) ^ (e + 1) = 2 ^ 1 * 2 ^ e from two_zpow_add_natCast e 1]
    push_cast
    ring
  rw [unpackedValue, hvalue]
  exact hr.signed s

end Round

section Shift

variable {m k : ℕ} {e : ℤ} {x : ℚ}

/-- A mantissa which is shifted to its target exponent has no more than 53 bits before the point. -/
theorem div_two_pow_lt (hlt : x < m + 1) (hk : m.log2 ≤ 52 + k) : x / 2 ^ k < 2 ^ 53 := by
  have hbits : m + 1 ≤ 2 ^ (53 + k) :=
    Nat.lt_log2_self.trans_le (Nat.pow_le_pow_right two_pos (by omega))
  have hbits' : (m : ℚ) + 1 ≤ 2 ^ 53 * 2 ^ k := by
    rw [← pow_add]
    exact_mod_cast hbits
  rw [div_lt_iff₀ (by positivity)]
  exact hlt.trans_le hbits'

/-- It has 53 bits, if it is not zero and the exponent is not the least one. -/
theorem two_pow_le_div (hle : (m : ℚ) ≤ x) (hm : m ≠ 0) (hk : m.log2 = 52 + k) :
    2 ^ 52 ≤ x / 2 ^ k := by
  have hbits : 2 ^ (52 + k) ≤ m := hk ▸ Nat.log2_self_le hm
  have hbits' : (2 : ℚ) ^ 52 * 2 ^ k ≤ m := by
    rw [← pow_add]
    exact_mod_cast hbits
  rw [le_div_iff₀ (by positivity)]
  exact hbits'.trans hle

end Shift

/-- A whole number of the right units within half of one is a mantissa, possibly with one bit too
many, and as near as any value. -/
theorem nearest_of_abs_sub_le {y : ℚ} {n : ℕ} {e : ℤ} (hy : 0 ≤ y) (hlt : y < 2 ^ 53)
    (he : -1074 ≤ e) (hunit : e = -1074 ∨ 2 ^ 52 ≤ y) (hnear : |(n : ℚ) - y| ≤ 1 / 2) :
    n ≤ 2 ^ 53 ∧ (e = -1074 ∨ 2 ^ 52 ≤ n) ∧ Nearest (y * 2 ^ e) (n * 2 ^ e) := by
  obtain ⟨hnear₁, hnear₂⟩ := abs_le.1 hnear
  have hpos := two_zpow_pos e
  have hbound : n ≤ 2 ^ 53 := by
    have hbound' : (n : ℚ) < 2 ^ 53 + 1 := by linarith
    exact Nat.lt_succ_iff.1 (by exact_mod_cast hbound')
  refine ⟨hbound, hunit.imp_right fun h => ?_, ?_⟩
  · have hlow : (2 : ℚ) ^ 52 < n + 1 := by linarith
    exact Nat.lt_succ_iff.1 (by exact_mod_cast hlow)
  · have hnearest := nearest_of_unit (r := y * 2 ^ e) (n := n) he ?_ ?_ ?_
    · exact_mod_cast hnearest
    · rw [Nat.abs_cast]
      exact_mod_cast hbound
    · refine hunit.imp_right fun h => ?_
      rw [abs_of_nonneg (mul_nonneg hy hpos.le)]
      exact mul_le_mul_of_nonneg_right h hpos.le
    · rw [Int.cast_natCast, ← sub_mul, abs_mul, abs_of_pos hpos]
      linarith [mul_le_mul_of_nonneg_right hnear hpos.le]

/-- Rounding an unpacked number whose exponent is not too large. -/
theorem roundedTo_roundWithAccuracy {s : Sign} {m : ℕ} {e : ℤ} {acc : Accuracy} {x : ℚ}
    (hx : Represents (.ofMantissaAndAccuracy m acc) x)
    (he : e ≤ Format.binary64.targetExponent (totalExponent m e)) :
    RoundedTo (signed s (x * 2 ^ e)) (roundWithAccuracy .binary64 s m e acc) := by
  obtain ⟨k, hk⟩ : ∃ k, k = (Format.binary64.targetExponent (totalExponent m e) - e).toNat :=
    ⟨_, rfl⟩
  have hshift : shiftToTargetExponent .binary64 m e acc =
      (ExtendedMantissa.ofMantissaAndAccuracy m acc >>> k, e + k) := by
    rw [hk]
    rfl
  obtain ⟨n, hn⟩ : ∃ n, n = (ExtendedMantissa.ofMantissaAndAccuracy m acc >>> k).roundedMantissa :=
    ⟨_, rfl⟩
  have hle := hx.mantissa_le
  have hlt := hx.lt_mantissa_add_one
  rw [mantissa_ofMantissaAndAccuracy] at hle hlt
  rw [targetExponent_binary64, totalExponent] at hk he
  have hek : -1074 ≤ e + k := by omega
  have hnear : |(n : ℚ) - x / 2 ^ k| ≤ 1 / 2 := by
    rw [hn]
    exact (hx.shiftRight k).abs_roundedMantissa_sub_le
  have hx0 : 0 ≤ x / 2 ^ k := div_nonneg ((Nat.cast_nonneg m).trans hle) (by positivity)
  have hunit : e + k = -1074 ∨ 2 ^ 52 ≤ x / 2 ^ k := by
    by_cases hleast : e + k = -1074
    · exact .inl hleast
    · have hm : m ≠ 0 := by
        rintro rfl
        rw [Nat.log2_zero] at hk he
        omega
      exact .inr (two_pow_le_div hle hm (by omega))
  obtain ⟨hbound, hunit', hnearest⟩ :=
    nearest_of_abs_sub_le hx0 (div_two_pow_lt hlt (by omega)) hek hunit hnear
  have hscale : x / 2 ^ k * 2 ^ (e + k) = x * 2 ^ e := by
    rw [two_zpow_add_natCast, ← mul_assoc, div_mul_cancel₀ _ (by positivity)]
  rw [hscale] at hnearest
  unfold roundWithAccuracy
  rw [hshift]
  dsimp only
  rw [← hn]
  rcases hbound.lt_or_eq with hfits | hfull
  · rw [shiftToTargetExponent_of_lt hfits hek]
    exact roundedTo_of_lt hfits hek hunit' hnearest
  · rw [hfull, shiftToTargetExponent_of_eq hek]
    rw [hfull] at hnearest
    exact roundedTo_of_eq hek (by exact_mod_cast hnearest) (by decide)

theorem log2_shiftLeft {m : ℕ} (hm : m ≠ 0) (k : ℕ) : (m <<< k).log2 = m.log2 + k := by
  rw [Nat.log2_eq_iff (by rwa [Nat.shiftLeft_eq, Nat.mul_ne_zero_iff, and_iff_left (by positivity)]),
    Nat.shiftLeft_eq, pow_add, Nat.add_right_comm, pow_add _ (m.log2 + 1)]
  exact ⟨Nat.mul_le_mul_right _ (Nat.log2_self_le hm),
    Nat.mul_lt_mul_of_pos_right Nat.lt_log2_self (by positivity)⟩

theorem roundedTo_round {s : Sign} {m : ℕ} {e : ℤ} (hm : 0 < m) :
    RoundedTo (signed s (m * 2 ^ e)) (round .binary64 s m e) := by
  obtain ⟨t, ht⟩ : ∃ t, t = Format.binary64.targetExponent (totalExponent m e) := ⟨_, rfl⟩
  obtain ⟨k, hk⟩ : ∃ k, k = (e - t).toNat := ⟨_, rfl⟩
  have hvalue : (m : ℚ) * 2 ^ e = (m <<< k : ℕ) * 2 ^ (e - k) := by
    rw [Nat.shiftLeft_eq, Nat.cast_mul, Nat.cast_pow, Nat.cast_ofNat, mul_assoc,
      ← two_zpow_add_natCast, Int.sub_add_cancel]
  have he : e - k ≤ Format.binary64.targetExponent (totalExponent (m <<< k) (e - k)) := by
    have htotal : totalExponent (m <<< k) (e - k) = totalExponent m e := by
      rw [totalExponent, totalExponent, log2_shiftLeft hm.ne']
      omega
    rw [htotal, ← ht]
    omega
  have hround : round .binary64 s m e = roundWithAccuracy .binary64 s (m <<< k) (e - k) .exact := by
    rw [hk, ht]
    rfl
  rw [hround, hvalue]
  exact roundedTo_roundWithAccuracy (represents_exact _) he

theorem roundedTo_normalize (n e : ℤ) (s : Sign) :
    RoundedTo (n * 2 ^ e) (UnpackedFloat.normalize .binary64 n e s) := by
  unfold UnpackedFloat.normalize
  cases hcompare : compare n 0 with
  | lt =>
    have hneg := compare_lt_iff_lt.1 hcompare
    have hvalue : (n : ℚ) * 2 ^ e = signed .negative ((-n).toNat * 2 ^ e) := by
      have hcast : (((-n).toNat : ℤ) : ℚ) = -n := by rw [Int.toNat_of_nonneg (by omega), Int.cast_neg]
      rw [signed, ← Int.cast_natCast, hcast, neg_mul, neg_neg]
    rw [hvalue]
    exact roundedTo_round (by omega)
  | eq =>
    rw [compare_eq_iff_eq.1 hcompare, Int.cast_zero, zero_mul]
    exact roundedTo_zero s
  | gt =>
    have hpos := compare_gt_iff_gt.1 hcompare
    have hvalue : (n : ℚ) * 2 ^ e = signed .positive (n.toNat * 2 ^ e) := by
      have hcast : ((n.toNat : ℤ) : ℚ) = n := by rw [Int.toNat_of_nonneg (le_of_lt hpos)]
      rw [signed, ← Int.cast_natCast, hcast]
    rw [hvalue]
    exact roundedTo_round (by omega)

end Ordinate.Double

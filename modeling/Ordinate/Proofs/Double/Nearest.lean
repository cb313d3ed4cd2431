import Mathlib.Algebra.Order.Archimedean.Basic
import Mathlib.Algebra.Order.Round
import Mathlib.Data.Rat.Floor
import Mathlib.Tactic.Linarith
import Mathlib.Tactic.NormNum
import Mathlib.Tactic.Positivity
import Mathlib.Tactic.Ring

/-!
# The numbers which doubles denote

* `Double.IsValue` : the rational numbers which doubles denote if their exponents have no upper
  bound;
* `Double.least`, `Double.greatest` : the least positive one of them, and the greatest one with an
  exponent that a double can have;
* `Double.Nearest` : such a number, as near to a given one as any;
* `Double.nearest_of_unit` : whole multiples of the right unit are as near as any, if they are
  within half of it;
* `Double.Nearest.le_of_le`, `Double.Nearest.mono` : rounding does not pass a double, and keeps the
  order;
* `Double.Nearest.abs_sub_le`, `Double.Nearest.abs_sub_le_of_multiple` : bounds on its error.
-/

namespace Ordinate.Double

/-- A whole multiple of a power of two, both within the bounds of a double; only large exponents are
not excluded. -/
def IsValue (c : ℚ) : Prop :=
  ∃ n e : ℤ, -1074 ≤ e ∧ |n| ≤ 2 ^ 53 ∧ c = n * 2 ^ e

/-- The least positive value, of which all others are multiples. -/
def least : ℚ :=
  2 ^ (-1074 : ℤ)

/-- The least power of two which is greater than all values with exponents that a double can
have. -/
def overflow : ℚ :=
  2 ^ (1024 : ℤ)

/-- The greatest value with an exponent that a double can have. -/
def greatest : ℚ :=
  (2 ^ 53 - 1) * 2 ^ (971 : ℤ)

/-- The number `y` is the value of a double, and no other one is nearer to `r`. -/
structure Nearest (r y : ℚ) : Prop where
  isValue : IsValue y
  abs_sub_le_abs_sub : ∀ c, IsValue c → |y - r| ≤ |c - r|

theorem two_zpow_pos (e : ℤ) : (0 : ℚ) < 2 ^ e :=
  zpow_pos two_pos e

theorem least_pos : 0 < least :=
  two_zpow_pos _

theorem least_le : least ≤ 1 / 2 ^ 60 := by
  have hpow : least ≤ 2 ^ (-60 : ℤ) := zpow_le_zpow_right₀ one_le_two (by decide)
  rwa [zpow_neg, ← one_div] at hpow

theorem two_zpow_add_natCast (e : ℤ) (n : ℕ) : (2 : ℚ) ^ (e + n) = 2 ^ n * 2 ^ e := by
  rw [zpow_add₀ two_ne_zero, zpow_natCast, mul_comm]

/-! ## Values -/

theorem isValue_intCast {n : ℤ} (h : |n| ≤ 2 ^ 53) : IsValue n :=
  ⟨n, 0, by decide, h, by rw [zpow_zero, mul_one]⟩

theorem isValue_natCast {n : ℕ} (h : n ≤ 2 ^ 53) : IsValue n := by
  have habs : |(n : ℤ)| ≤ 2 ^ 53 := by
    rw [Nat.abs_cast]
    exact_mod_cast h
  exact_mod_cast isValue_intCast habs

theorem isValue_zero : IsValue 0 :=
  isValue_natCast (n := 0) (Nat.zero_le _)

theorem isValue_greatest : IsValue greatest :=
  ⟨2 ^ 53 - 1, 971, by decide, by decide, by rw [greatest]; norm_num⟩

theorem greatest_lt_overflow : greatest < overflow := by
  rw [greatest, overflow, show (1024 : ℤ) = 971 + (53 : ℕ) from rfl, two_zpow_add_natCast]
  exact mul_lt_mul_of_pos_right (sub_one_lt _) (two_zpow_pos 971)

theorem IsValue.neg {c : ℚ} (h : IsValue c) : IsValue (-c) := by
  obtain ⟨n, e, he, hn, rfl⟩ := h
  exact ⟨-n, e, he, by rwa [abs_neg], by push_cast; ring⟩

/-- A value with a unit which is not smaller is a whole multiple of the smaller unit. -/
theorem exists_eq_mul_of_le {n e e' : ℤ} (h : e ≤ e') :
    ∃ k : ℤ, (n : ℚ) * 2 ^ e' = k * 2 ^ e := by
  obtain ⟨d, rfl⟩ := Int.exists_add_of_le h
  refine ⟨n * 2 ^ d, ?_⟩
  rw [two_zpow_add_natCast]
  push_cast
  ring

theorem IsValue.exists_multiple {c : ℚ} (h : IsValue c) : ∃ k : ℤ, c = k * least := by
  obtain ⟨n, e, he, -, rfl⟩ := h
  exact exists_eq_mul_of_le he

/-! ## Nearest values -/

/-- Of two bounds on either side of zero, one is nearer to what lies outside than what lies
between. -/
theorem abs_sub_le_or_abs_sub_le {b c r : ℚ} (hc : |c| ≤ b) (hr : b ≤ |r|) :
    |b - r| ≤ |c - r| ∨ |-b - r| ≤ |c - r| := by
  obtain ⟨hlow, hhigh⟩ := abs_le.1 hc
  rcases le_total 0 r with h | h
  · rw [abs_of_nonneg h] at hr
    rw [abs_of_nonpos (sub_nonpos.2 hr), abs_of_nonpos (sub_nonpos.2 (hhigh.trans hr))]
    exact .inl (neg_le_neg (sub_le_sub_right hhigh r))
  · rw [abs_of_nonpos h, le_neg] at hr
    rw [abs_of_nonneg (sub_nonneg.2 hr), abs_of_nonneg (sub_nonneg.2 (hr.trans hlow))]
    exact .inr (sub_le_sub_right hlow r)

/-- Of the whole multiples of a unit, that within half of it is as near as any. -/
theorem abs_sub_le_of_le_half {r u : ℚ} {n : ℤ} (hu : 0 < u) (hnear : |n * u - r| ≤ u / 2) (k : ℤ) :
    |n * u - r| ≤ |k * u - r| := by
  by_cases hk : k = n
  · rw [hk]
  have hone : (1 : ℚ) ≤ |(k : ℚ) - n| := by
    exact_mod_cast Int.one_le_abs (sub_ne_zero.2 hk)
  have hgap : u ≤ |(k : ℚ) * u - n * u| := by
    rw [← sub_mul, abs_mul, abs_of_pos hu]
    exact le_mul_of_one_le_left hu.le hone
  have htriangle := abs_sub_le ((k : ℚ) * u) r (n * u)
  rw [abs_sub_comm r] at htriangle
  linarith

/-- The whole multiple of `2 ^ e` within half of it is as near as any value, where `2 ^ e` is the
unit of the number to be rounded. -/
theorem nearest_of_unit {r : ℚ} {n e : ℤ} (he : -1074 ≤ e) (hn : |n| ≤ 2 ^ 53)
    (hunit : e = -1074 ∨ 2 ^ 52 * 2 ^ e ≤ |r|) (hnear : |n * 2 ^ e - r| ≤ 2 ^ e / 2) :
    Nearest r (n * 2 ^ e) := by
  have hmultiple := abs_sub_le_of_le_half (two_zpow_pos e) hnear
  refine ⟨⟨n, e, he, hn, rfl⟩, ?_⟩
  rintro c ⟨n', e', he', hn', rfl⟩
  by_cases hle : e ≤ e'
  · obtain ⟨k, hk⟩ := exists_eq_mul_of_le (n := n') hle
    rw [hk]
    exact hmultiple k
  -- A value with a smaller unit is not farther from zero than `2 ^ 52` units, and `r` is not nearer.
  have hr : 2 ^ 52 * 2 ^ e ≤ |r| := by
    obtain rfl | h := hunit
    · omega
    · exact h
  have hhalf : (2 : ℚ) ^ e' ≤ 2 ^ e / 2 := by
    rw [div_eq_mul_inv, ← zpow_sub_one₀ (by norm_num : (2 : ℚ) ≠ 0)]
    exact zpow_le_zpow_right₀ one_le_two (by omega)
  have hc : |(n' : ℚ) * 2 ^ e'| ≤ 2 ^ 52 * 2 ^ e := by
    have hn'' : |(n' : ℚ)| ≤ 2 ^ 53 := by exact_mod_cast hn'
    rw [abs_mul, abs_of_pos (two_zpow_pos e')]
    calc |(n' : ℚ)| * 2 ^ e' ≤ 2 ^ 53 * (2 ^ e / 2) :=
          mul_le_mul hn'' hhalf (two_zpow_pos e').le (by positivity)
      _ = 2 ^ 52 * 2 ^ e := by ring
  rcases abs_sub_le_or_abs_sub_le hc hr with h | h
  · have hbound := hmultiple (2 ^ 52)
    rw [Int.cast_pow, Int.cast_ofNat] at hbound
    exact hbound.trans h
  · have hbound := hmultiple (-2 ^ 52)
    rw [Int.cast_neg, Int.cast_pow, Int.cast_ofNat, neg_mul] at hbound
    exact hbound.trans h

theorem IsValue.nearest_self {r : ℚ} (h : IsValue r) : Nearest r r := by
  refine ⟨h, fun c _ => ?_⟩
  rw [sub_self, abs_zero]
  exact abs_nonneg _

section Order

variable {r r' y y' c : ℚ}

theorem Nearest.eq_of_isValue (h : Nearest r y) (hr : IsValue r) : y = r := by
  have hdist := h.abs_sub_le_abs_sub r hr
  rwa [sub_self, abs_zero, abs_nonpos_iff, sub_eq_zero] at hdist

theorem Nearest.neg (h : Nearest r y) : Nearest (-r) (-y) := by
  refine ⟨h.isValue.neg, fun c hc => ?_⟩
  calc |-y - -r| = |y - r| := by rw [neg_sub_neg, abs_sub_comm]
    _ ≤ |-c - r| := h.abs_sub_le_abs_sub (-c) hc.neg
    _ = |c - -r| := by rw [← abs_neg, neg_sub, sub_neg_eq_add, sub_neg_eq_add, add_comm]

/-- Rounding up does not pass a value. -/
theorem Nearest.le_of_le (h : Nearest r y) (hc : IsValue c) (hle : r ≤ c) : y ≤ c := by
  by_contra hlt
  have hdist := h.abs_sub_le_abs_sub c hc
  rw [abs_of_nonneg (sub_nonneg.2 hle), abs_of_nonneg (by linarith)] at hdist
  linarith

/-- Rounding down does not pass a value. -/
theorem Nearest.le_of_ge (h : Nearest r y) (hc : IsValue c) (hle : c ≤ r) : c ≤ y := by
  by_contra hlt
  have hdist := h.abs_sub_le_abs_sub c hc
  rw [abs_of_nonpos (sub_nonpos.2 hle), abs_of_nonpos (by linarith)] at hdist
  linarith

theorem Nearest.nonneg (h : Nearest r y) (hr : 0 ≤ r) : 0 ≤ y :=
  h.le_of_ge isValue_zero hr

/-- Rounding keeps the order. -/
theorem Nearest.mono (h : Nearest r y) (h' : Nearest r' y') (hlt : r < r') : y ≤ y' := by
  by_contra hne
  have hdist := h.abs_sub_le_abs_sub y' h'.isValue
  have hdist' := h'.abs_sub_le_abs_sub y h.isValue
  have hgap : 0 < y - y' := sub_pos.2 (not_le.1 hne)
  have hmid : y + y' ≤ 2 * r := by
    have hsq := sq_le_sq.2 hdist
    nlinarith
  have hmid' : 2 * r' ≤ y + y' := by
    have hsq := sq_le_sq.2 hdist'
    nlinarith
  linarith

end Order

/-! ## Errors -/

/-- There is a value near each number. -/
theorem exists_isValue_near (r : ℚ) : ∃ c, IsValue c ∧ |c - r| ≤ |r| / 2 ^ 53 + least / 2 := by
  by_cases hr : r = 0
  · refine ⟨0, isValue_zero, ?_⟩
    rw [hr, sub_zero, abs_zero, zero_div, zero_add]
    exact (half_pos least_pos).le
  obtain ⟨k, hlow, hhigh⟩ := exists_mem_Ico_zpow (abs_pos.2 hr) one_lt_two
  obtain ⟨e, he⟩ : ∃ e, e = max (k - 52) (-1074) := ⟨_, rfl⟩
  have hpos := two_zpow_pos e
  have hround := abs_sub_round (r / 2 ^ e)
  have hnear : |(round (r / 2 ^ e) : ℚ) * 2 ^ e - r| ≤ 2 ^ e / 2 := by
    have hmul : (round (r / 2 ^ e) : ℚ) * 2 ^ e - r = -(r / 2 ^ e - round (r / 2 ^ e)) * 2 ^ e := by
      rw [neg_sub, sub_mul, div_mul_cancel₀ _ hpos.ne']
    rw [hmul, abs_mul, abs_neg, abs_of_pos hpos]
    linarith [mul_le_mul_of_nonneg_right hround hpos.le]
  have hquot : |r / 2 ^ e| ≤ 2 ^ 53 := by
    rw [abs_div, abs_of_pos hpos, div_le_iff₀ hpos, ← two_zpow_add_natCast]
    exact hhigh.le.trans (zpow_le_zpow_right₀ one_le_two (by push_cast; omega))
  have hbound : |round (r / 2 ^ e)| ≤ 2 ^ 53 := by
    have hlt : |(round (r / 2 ^ e) : ℚ)| < 2 ^ 53 + 1 := by
      have htriangle := abs_sub_abs_le_abs_sub (round (r / 2 ^ e) : ℚ) (r / 2 ^ e)
      rw [abs_sub_comm] at htriangle
      linarith
    exact Int.lt_add_one_iff.1 (by exact_mod_cast hlt)
  have hunit : (2 : ℚ) ^ e ≤ 2 ^ (k - 52) + least := by
    rw [he]
    rcases le_total (k - 52) (-1074) with h | h
    · rw [max_eq_right h]
      exact le_add_of_nonneg_left (two_zpow_pos _).le
    · rw [max_eq_left h]
      exact le_add_of_nonneg_right least_pos.le
  have hk : (2 : ℚ) ^ (k - 52) * 2 ^ 52 = 2 ^ k := by
    rw [mul_comm, ← two_zpow_add_natCast]
    congr 1
    push_cast
    omega
  refine ⟨_, ⟨round (r / 2 ^ e), e, he ▸ le_max_right _ _, hbound, rfl⟩, hnear.trans ?_⟩
  linarith

section Error

variable {r y : ℚ}

theorem Nearest.abs_sub_le (h : Nearest r y) : |y - r| ≤ |r| / 2 ^ 53 + least / 2 := by
  obtain ⟨c, hc, hnear⟩ := exists_isValue_near r
  exact (h.abs_sub_le_abs_sub c hc).trans hnear

/-- The error in a sum or a whole multiple of values is small compared with that number itself. -/
theorem Nearest.abs_sub_le_of_multiple (h : Nearest r y) {k : ℤ} (hk : r = k * least) :
    |y - r| ≤ |r| / 2 ^ 52 := by
  by_cases hsmall : |k| ≤ 2 ^ 53
  · rw [h.eq_of_isValue ⟨k, -1074, le_rfl, hsmall, hk⟩, sub_self, abs_zero]
    positivity
  · have hlarge : (2 : ℚ) ^ 53 ≤ |(k : ℚ)| := by exact_mod_cast (not_le.1 hsmall).le
    have hr : 2 ^ 53 * least ≤ |r| := by
      rw [hk, abs_mul, abs_of_pos least_pos]
      exact mul_le_mul_of_nonneg_right hlarge least_pos.le
    have herror := h.abs_sub_le
    have hnonneg := abs_nonneg r
    linarith

end Error

end Ordinate.Double

import Mathlib.Algebra.Order.Floor.Semiring
import Mathlib.Data.Rat.Floor
import Mathlib.Data.Set.Card
import Mathlib.Tactic.Linarith
import Mathlib.Tactic.Positivity
import Ordinate.Sampling.Sweep

/-!
# Sweeps in exact arithmetic

* `Scale.rational` : rational numbers;
* `Sweep.lt_count_iff` : the sampled indices are those below the limit whose points lie past the end
  by no more than the tolerance;
* `Sweep.samples_exact` : what is sampled, how many points that are, and when a warning is given.
-/

namespace Ordinate

def Scale.rational : Scale ℚ where
  isFinite _ := true
  lt a b := a < b
  le a b := a ≤ b
  add a b := a + b
  subtract a b := a - b
  multiply a b := a * b
  divide a b := a / b
  ofNat n := n
  tolerance := 1 / 10 ^ 9
  floor v := ⌊v⌋₊

namespace Sweep

variable {s : Sweep ℚ}

def Forward (s : Sweep ℚ) : Prop :=
  0 < s.step ∧ s.start ≤ s.stop

/-- The farthest place which still counts as the end. -/
def reach (s : Sweep ℚ) : ℚ :=
  s.stop + 1 / 10 ^ 9 * s.step

theorem isValid_iff : s.isValid .rational ↔ s.Forward := by
  simp [isValid, Scale.rational, Forward]

theorem point_rational (s : Sweep ℚ) (i : Nat) : s.point .rational i = s.start + i * s.step := rfl

theorem steps_rational (s : Sweep ℚ) :
    s.steps .rational = (s.stop - s.start) / s.step + 1 / 10 ^ 9 := rfl

/-- An index counts no more steps than lead to the end exactly if its point is in reach. -/
theorem le_steps_iff (h : s.Forward) {i : Nat} :
    (i : ℚ) ≤ s.steps .rational ↔ s.point .rational i ≤ s.reach := by
  have hsum : s.steps .rational = (s.reach - s.start) / s.step := by
    rw [steps_rational, reach, eq_div_iff h.1.ne', add_mul, div_mul_cancel₀ _ h.1.ne']
    ring
  rw [hsum, le_div_iff₀ h.1, point_rational]
  constructor <;> intro hle <;> linarith

theorem steps_nonneg (h : s.Forward) : 0 ≤ s.steps .rational := by
  rw [steps_rational]
  have hwidth : 0 ≤ (s.stop - s.start) / s.step := div_nonneg (sub_nonneg.2 h.2) h.1.le
  linarith

theorem count_eq (h : s.Forward) :
    s.count .rational =
      if (pointLimit : ℚ) ≤ s.steps .rational then pointLimit else ⌊s.steps .rational⌋₊ + 1 :=
  (count_of_isValid (isValid_iff.2 h)).trans (if_congr decide_eq_true_iff rfl rfl)

/-- An index is sampled exactly if it is below the limit and its point is in reach. -/
theorem lt_count_iff (h : s.Forward) {i : Nat} :
    i < s.count .rational ↔ i < pointLimit ∧ s.point .rational i ≤ s.reach := by
  rw [count_eq h, ← le_steps_iff h]
  split
  · next hcut =>
    have hle : i < pointLimit → (i : ℚ) ≤ s.steps .rational := by
      intro hi
      have hcast : (i : ℚ) ≤ pointLimit := Nat.cast_le.2 hi.le
      exact hcast.trans hcut
    exact ⟨fun hi => ⟨hi, hle hi⟩, And.left⟩
  · next hcut =>
    have hlt : (i : ℚ) ≤ s.steps .rational → i < pointLimit := by
      intro hi
      exact Nat.cast_lt.1 (hi.trans_lt (not_le.1 hcut))
    rw [Nat.lt_succ_iff, Nat.le_floor_iff (steps_nonneg h)]
    exact ⟨fun hi => ⟨hlt hi, hi⟩, And.right⟩

theorem count_pos (h : s.Forward) : 0 < s.count .rational := by
  rw [lt_count_iff h, point_rational, reach]
  have hend := h.2
  have hstep := h.1
  refine ⟨by decide, ?_⟩
  push_cast
  linarith

theorem count_le_pointLimit (h : s.Forward) : s.count .rational ≤ pointLimit := by
  by_contra hlt
  exact absurd ((lt_count_iff h).1 (not_le.1 hlt)).1 (lt_irrefl _)

/-- More indices than are sampled have their points in reach exactly if points are left out. -/
theorem lt_encard_iff (h : s.Forward) :
    (pointLimit : ℕ∞) < {i : Nat | s.point .rational i ≤ s.reach}.encard ↔
      (pointLimit : ℚ) ≤ s.steps .rational := by
  have hset : {i : Nat | s.point .rational i ≤ s.reach} =
      (Finset.range (⌊s.steps .rational⌋₊ + 1) : Set Nat) := by
    ext i
    rw [Set.mem_ofPred_eq, Finset.mem_coe, Finset.mem_range, Nat.lt_succ_iff,
      Nat.le_floor_iff (steps_nonneg h), le_steps_iff h]
  rw [hset, Set.encard_coe_eq_coe_finsetCard, Finset.card_range, Nat.cast_lt, Nat.lt_succ_iff,
    Nat.le_floor_iff (steps_nonneg h)]

theorem warnings_eq (h : s.Forward) (spell : ℚ → String) :
    s.warnings .rational spell =
      if (pointLimit : ℕ∞) < {i : Nat | s.point .rational i ≤ s.reach}.encard
      then [s.warning spell] else [] :=
  (warnings_of_isValid (isValid_iff.2 h) spell).trans
    (if_congr (decide_eq_true_iff.trans (lt_encard_iff h).symm) rfl rfl)

theorem point_lt_point (h : s.Forward) {i j : Nat} (hij : i < j) :
    s.point .rational i < s.point .rational j := by
  have hcast : (i : ℚ) < j := Nat.cast_lt.2 hij
  rw [point_rational, point_rational]
  have := mul_lt_mul_of_pos_right hcast h.1
  linarith

theorem pairwise_lt_points (h : s.Forward) : (s.points .rational).Pairwise (· < ·) := by
  rw [points, firstPoints, List.pairwise_map]
  exact List.pairwise_lt_range.imp fun hij => point_lt_point h hij

theorem head?_points (h : s.Forward) : (s.points .rational).head? = some s.start := by
  rw [List.head?_eq_getElem?, getElem?_points, point?, if_pos (count_pos h), point_rational,
    Nat.cast_zero, zero_mul, add_zero]

theorem count_of_not_forward (h : ¬s.Forward) : s.count .rational = 0 :=
  count_of_not_isValid fun hvalid => h (isValid_iff.1 hvalid)

/-- A sweep which leads forward samples, of the points which pass its end by no more than the
tolerance, those with an index below the limit. That is at least one point and every point up to
the end below the limit; the points increase from the start on; and a warning is given exactly if
more indices than the limit have such a point. Any other sweep has no point and gives no
warning. -/
theorem samples_exact (s : Sweep ℚ) (spell : ℚ → String) :
    (0 < s.step ∧ s.start ≤ s.stop →
      (∀ i < s.count .rational, s.start + i * s.step ≤ s.stop + 1 / 10 ^ 9 * s.step) ∧
      (∀ i < pointLimit, s.start + i * s.step ≤ s.stop → i < s.count .rational) ∧
      (1 ≤ s.count .rational ∧ s.count .rational ≤ pointLimit) ∧
      (s.warnings .rational spell =
        if (pointLimit : ℕ∞) <
          {i : Nat | s.start + i * s.step ≤ s.stop + 1 / 10 ^ 9 * s.step}.encard
        then [s.warning spell] else []) ∧
      (s.points .rational).length = s.count .rational ∧
      (∀ i < s.count .rational, (s.points .rational)[i]? = some (s.start + i * s.step)) ∧
      (s.points .rational).Pairwise (· < ·) ∧ (s.points .rational).head? = some s.start) ∧
    (¬(0 < s.step ∧ s.start ≤ s.stop) →
      s.points .rational = [] ∧ s.warnings .rational spell = []) := by
  constructor
  · intro (h : s.Forward)
    refine ⟨fun i hi => ((lt_count_iff h).1 hi).2, fun i hi hle => ?_,
      ⟨count_pos h, count_le_pointLimit h⟩, warnings_eq h spell, length_points .rational s,
      fun i hi => ?_, pairwise_lt_points h, head?_points h⟩
    · refine (lt_count_iff h).2 ⟨hi, hle.trans ?_⟩
      have hstep := h.1
      rw [reach]
      linarith
    · rw [getElem?_points, point?, if_pos hi, point_rational]
  · intro (h : ¬s.Forward)
    constructor
    · rw [points, count_of_not_forward h]
      rfl
    · exact warnings_of_not_isValid (fun hvalid => h (isValid_iff.1 hvalid)) spell

/-- One point more than are sampled: the last index of a million is in, the next one is not. -/
theorem samples_exact_million (spell : ℚ → String) :
    999999 < (Sweep.mk (0 : ℚ) 1000000 1).count .rational ∧
      (Sweep.mk (0 : ℚ) 1000000 1).count .rational ≤ pointLimit ∧
      ((Sweep.mk (0 : ℚ) 1000000 1).points .rational).head? = some 0 ∧
      (Sweep.mk (0 : ℚ) 1 (-1)).points .rational = [] := by
  obtain ⟨-, hin, ⟨-, hlimit⟩, -, -, -, -, hfirst⟩ :=
    (samples_exact ⟨0, 1000000, 1⟩ spell).1 (by norm_num)
  refine ⟨hin 999999 (by decide) (by norm_num), hlimit, hfirst, ?_⟩
  exact ((samples_exact ⟨0, 1, -1⟩ spell).2 (by norm_num)).1

end Sweep

end Ordinate

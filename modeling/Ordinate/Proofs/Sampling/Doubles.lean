import Ordinate.Proofs.Double.Packed
import Ordinate.Sampling.Sweep

/-!
# Sweeps of doubles

* `Sweep.Proper` : what makes a sweep of doubles valid, of the numbers which they denote;
* `Sweep.Proper.lt_pointLimit`, `Sweep.Proper.mul_step_le` : bounds on the sampled indices;
* `Sweep.Proper.value_point_le` : points are no more than a step past the end, as long as the width
  is finite;
* `Sweep.Proper.point_mono` : if a point is finite, those before it are, too, and are not greater;
* `Sweep.points_within` : when the points stay within the range.
-/

namespace Ordinate.Sweep

open Double

variable {s : Sweep Float} {i j : ℕ}

/-- Bounds and step are finite, the step leads forward, and the end is not before the start. -/
structure Proper (s : Sweep Float) : Prop where
  start : s.start.isFinite = true
  stop : s.stop.isFinite = true
  step : s.step.isFinite = true
  step_pos : 0 < value s.step
  start_le_stop : value s.start ≤ value s.stop

def span (s : Sweep Float) : ℚ :=
  value s.stop - value s.start

def width (s : Sweep Float) : Float :=
  Float.sub s.stop s.start

def offset (s : Sweep Float) (i : ℕ) : Float :=
  Float.mul (Float.ofNat i) s.step

/-- The number is finite, and no more than a step past the end. -/
def Within (s : Sweep Float) (v : Float) : Prop :=
  v.isFinite = true ∧ value v ≤ value s.stop + value s.step

theorem value_tolerance :
    (1e-9 : Float).isFinite = true ∧ 0 ≤ value 1e-9 ∧ value 1e-9 ≤ 1 / 2 ^ 28 := by
  have hread : Binary64.ofFloat 1e-9 = .finite false ⟨4835703278458517, -82, false⟩ := by rfl
  have hvalue : value 1e-9 = 4835703278458517 * 2 ^ (-82 : ℤ) := by
    rw [value, hread, Binary64.toRat, if_neg (by decide), Magnitude.toRat_value]
    rfl
  rw [hvalue]
  refine ⟨by decide +kernel, by positivity, ?_⟩
  norm_num

theorem isValid_iff_proper : s.isValid .float = true ↔ s.Proper := by
  obtain ⟨hzero, hvalue⟩ := value_ofNat (n := 0) (by decide)
  rw [Nat.cast_zero] at hvalue
  have hpos (hstep : s.step.isFinite = true) : Float.ofNat 0 < s.step ↔ 0 < value s.step := by
    rw [value_lt_iff hzero hstep, hvalue]
  simp only [isValid, Scale.float, Bool.and_eq_true, decide_eq_true_eq]
  constructor
  · rintro ⟨⟨⟨⟨hstart, hstop⟩, hstep⟩, hlt⟩, hle⟩
    exact ⟨hstart, hstop, hstep, (hpos hstep).1 hlt, (value_le_iff hstart hstop).1 hle⟩
  · rintro ⟨hstart, hstop, hstep, hlt, hle⟩
    exact ⟨⟨⟨⟨hstart, hstop⟩, hstep⟩, (hpos hstep).2 hlt⟩, (value_le_iff hstart hstop).2 hle⟩

theorem steps_float (s : Sweep Float) :
    s.steps .float = Float.add (Float.div s.width s.step) 1e-9 := rfl

theorem cast_le_limit (hi : i < pointLimit) : (i : ℚ) ≤ 2 ^ 20 := by
  have hle : i ≤ 2 ^ 20 := hi.le.trans (by decide)
  exact_mod_cast hle

namespace Proper

variable (h : s.Proper)

include h

/-! ## The number of points -/

theorem span_nonneg : 0 ≤ s.span :=
  sub_nonneg.2 h.start_le_stop

theorem rounds_width : Rounds s.span s.width :=
  rounds_sub h.stop h.start

theorem isInfinity_steps (hw : ¬s.width.isFinite = true) : IsInfinity (s.steps .float) := by
  have hwidth := (h.rounds_width).isInfinity (h.span_nonneg) hw
  exact (hwidth.div h.step h.step_pos).add_left value_tolerance.1

theorem steps_nonneg_or_isInfinity :
    ((s.steps .float).isFinite = true ∧ 0 ≤ value (s.steps .float)) ∨
      IsInfinity (s.steps .float) := by
  by_cases hw : s.width.isFinite = true
  · have hwidth := ((h.rounds_width).nearest hw).nonneg (h.span_nonneg)
    have hquotient := rounds_div hw h.step h.step_pos.ne'
    obtain ⟨ht, htol, -⟩ := value_tolerance
    rcases hquotient.nonneg_or_isInfinity (div_nonneg hwidth h.step_pos.le) with ⟨hq, hpos⟩ | hq
    · exact (rounds_add hq ht).nonneg_or_isInfinity (add_nonneg hpos htol)
    · exact .inr (hq.add_left ht)
  · exact .inr (h.isInfinity_steps hw)

theorem count_eq :
    s.count .float =
      if Float.ofNat pointLimit ≤ s.steps .float then pointLimit
      else (s.steps .float).toUInt64.toNat + 1 :=
  (count_of_isValid (isValid_iff_proper.2 h)).trans (if_congr decide_eq_true_iff rfl rfl)

theorem count_pos : 0 < s.count .float := by
  rw [h.count_eq]
  split
  · decide
  · exact Nat.succ_pos _

/-- Beyond the bounds of doubles there are too many points. -/
theorem count_of_isInfinity (hs : IsInfinity (s.steps .float)) : s.count .float = pointLimit := by
  rw [h.count_eq, if_pos (IsInfinity.le (value_ofNat (by decide)).1 hs)]

/-- Otherwise the sampled indices count no more steps than lead to the end. -/
theorem le_steps (hs : (s.steps .float).isFinite = true) (hpos : 0 ≤ value (s.steps .float))
    (hi : i < s.count .float) : i < pointLimit ∧ (i : ℚ) ≤ value (s.steps .float) := by
  obtain ⟨hlimit, hvalue⟩ := value_ofNat (n := pointLimit) (by decide)
  rw [h.count_eq] at hi
  simp only [value_le_iff hlimit hs, hvalue] at hi
  split at hi
  · next hle =>
    have hcast : (i : ℚ) ≤ pointLimit := Nat.cast_le.2 hi.le
    exact ⟨hi, hcast.trans hle⟩
  · next hlt =>
    have hfloor := toUInt64_le hs
    rw [max_eq_left hpos] at hfloor
    have hcast : (i : ℚ) ≤ (s.steps .float).toUInt64.toNat := Nat.cast_le.2 (Nat.lt_succ_iff.1 hi)
    have hle := hcast.trans hfloor
    exact ⟨Nat.cast_lt.1 (hle.trans_lt (not_le.1 hlt)), hle⟩

theorem lt_pointLimit (hi : i < s.count .float) : i < pointLimit := by
  rcases h.steps_nonneg_or_isInfinity with ⟨hs, hpos⟩ | hs
  · exact (h.le_steps hs hpos hi).1
  · exact hi.trans_eq (h.count_of_isInfinity hs)

/-! ## The width of a sweep -/

theorem exists_span_eq : ∃ k : ℤ, s.span = k * least := by
  obtain ⟨k, hk⟩ := (isValue_value h.stop).exists_multiple
  obtain ⟨k', hk'⟩ := (isValue_value h.start).exists_multiple
  exact ⟨k - k', by rw [span, hk, hk', Int.cast_sub, sub_mul]⟩

theorem value_width (hw : s.width.isFinite = true) :
    0 ≤ value s.width ∧ value s.width ≤ s.span + s.span / 2 ^ 52 := by
  have hnearest := (h.rounds_width).nearest hw
  obtain ⟨k, hk⟩ := h.exists_span_eq
  have herror := hnearest.abs_sub_le_of_multiple hk
  rw [abs_of_nonneg (h.span_nonneg)] at herror
  exact ⟨hnearest.nonneg (h.span_nonneg), by linarith [le_abs_self (value s.width - s.span)]⟩

/-- If few steps lead to the end, they are counted with a small error. -/
theorem value_steps_le (hw : s.width.isFinite = true) (hfew : s.span / value s.step ≤ 2 ^ 21) :
    (s.steps .float).isFinite = true ∧
      value (s.steps .float) ≤ s.span / value s.step + 1 / 4 := by
  obtain ⟨hnonneg, hle⟩ := h.value_width hw
  obtain ⟨ht, htol, htol'⟩ := value_tolerance
  have hleast := least_le
  obtain ⟨x, hx⟩ : ∃ x, x = value s.width / value s.step := ⟨_, rfl⟩
  have hx0 : 0 ≤ x := hx ▸ div_nonneg hnonneg h.step_pos.le
  have hx1 : x ≤ s.span / value s.step + s.span / value s.step / 2 ^ 52 := by
    rw [hx, div_right_comm, ← add_div]
    exact div_le_div_of_nonneg_right hle h.step_pos.le
  have hquotient := rounds_div hw h.step h.step_pos.ne'
  rw [← hx] at hquotient
  obtain ⟨hq, hq0, hq1⟩ := hquotient.value_le (n := 2 ^ 22) hx0 (by decide) (by push_cast; linarith)
  obtain ⟨hs, -, hs1⟩ := (rounds_add hq ht).value_le (n := 2 ^ 23) (add_nonneg hq0 htol) (by decide)
    (by push_cast; linarith)
  refine ⟨hs, ?_⟩
  rw [steps_float]
  linarith

/-- No sampled index counts more steps than lead to the end, except for a small error. -/
theorem mul_step_le (hw : s.width.isFinite = true) (hi : i < s.count .float) :
    i * value s.step ≤ s.span + value s.step / 4 := by
  have hpos := h.step_pos
  rcases le_or_gt (s.span / value s.step) (2 ^ 21) with hfew | hmany
  · obtain ⟨hs, hle⟩ := h.value_steps_le hw hfew
    rcases h.steps_nonneg_or_isInfinity with ⟨-, hnonneg⟩ | hinfinity
    · have hsteps := (h.le_steps hs hnonneg hi).2.trans hle
      calc i * value s.step ≤ (s.span / value s.step + 1 / 4) * value s.step :=
            mul_le_mul_of_nonneg_right hsteps hpos.le
        _ = s.span + value s.step / 4 := by
            rw [add_mul, div_mul_cancel₀ _ hpos.ne']
            ring
    · exact absurd hs hinfinity.not_isFinite
  · have hlimit : (i : ℚ) ≤ 2 ^ 21 := by
      have hlt : i ≤ 2 ^ 21 := (h.lt_pointLimit hi).le.trans (by decide)
      exact_mod_cast hlt
    have hle := (le_div_iff₀ hpos).1 (hlimit.trans hmany.le)
    linarith

/-! ## Points -/

theorem rounds_offset (hi : i < pointLimit) : Rounds (i * value s.step) (s.offset i) := by
  obtain ⟨hfinite, hvalue⟩ := value_ofNat (hi.trans (by decide : pointLimit < 2 ^ 53))
  have hproduct := rounds_mul hfinite h.step
  rwa [hvalue] at hproduct

theorem mul_step_nonneg (i : ℕ) : 0 ≤ i * value s.step :=
  mul_nonneg (Nat.cast_nonneg i) h.step_pos.le

theorem abs_offset_sub_le (hi : i < pointLimit) (hp : (s.offset i).isFinite = true) :
    |value (s.offset i) - i * value s.step| ≤ value s.step / 4 := by
  obtain ⟨k, hk⟩ := (isValue_value h.step).exists_multiple
  have hmultiple : i * value s.step = (i * k : ℤ) * least := by
    rw [hk, Int.cast_mul, Int.cast_natCast, mul_assoc]
  have herror := ((h.rounds_offset hi).nearest hp).abs_sub_le_of_multiple hmultiple
  rw [abs_of_nonneg (h.mul_step_nonneg i)] at herror
  have hbound := mul_le_mul_of_nonneg_right (cast_le_limit hi) h.step_pos.le
  have hpos := h.step_pos
  linarith

theorem offset_nonneg (hi : i < pointLimit) (hp : (s.offset i).isFinite = true) :
    0 ≤ value (s.offset i) :=
  ((h.rounds_offset hi).nearest hp).nonneg (h.mul_step_nonneg i)

theorem rounds_point (hp : (s.offset i).isFinite = true) :
    Rounds (value s.start + value (s.offset i)) (s.point .float i) :=
  rounds_add h.start hp

/-- A point is infinite if its distance from the start is. -/
theorem isFinite_offset (hi : i < pointLimit) (hv : (s.point .float i).isFinite = true) :
    (s.offset i).isFinite = true := by
  by_contra hp
  have hoffset := (h.rounds_offset hi).isInfinity (h.mul_step_nonneg i) hp
  exact (hoffset.add_right h.start).not_isFinite hv

/-- A finite point is no more than a step past the end, if the width is finite. -/
theorem value_point_le (hw : s.width.isFinite = true) (hi : i < s.count .float)
    (hv : (s.point .float i).isFinite = true) :
    value (s.point .float i) ≤ value s.stop + value s.step := by
  have hlimit := h.lt_pointLimit hi
  have hp := h.isFinite_offset hlimit hv
  have hstep := h.mul_step_le hw hi
  have hoffset := (le_abs_self _).trans (h.abs_offset_sub_le hlimit hp)
  have hnearest := (h.rounds_point hp).nearest hv
  have hpos := h.step_pos
  rw [span] at hstep
  rcases le_or_gt (value s.start + value (s.offset i)) (value s.stop) with hle | hlt
  · exact (hnearest.le_of_le (isValue_value h.stop) hle).trans (le_add_of_nonneg_right hpos.le)
  · -- The end is a double, so the point is no farther from the sum than the end is.
    have hdist := hnearest.abs_sub_le_abs_sub _ (isValue_value h.stop)
    rw [abs_of_neg (sub_neg.2 hlt)] at hdist
    linarith [(le_abs_self _).trans hdist]

/-- The points before a finite one are finite and not greater. -/
theorem point_mono (hij : i < j) (hj : j < pointLimit) (hv : (s.point .float j).isFinite = true) :
    (s.point .float i).isFinite = true ∧ value (s.point .float i) ≤ value (s.point .float j) := by
  have hpos := h.step_pos
  have hi := hij.trans hj
  have hone : (i : ℚ) + 1 ≤ j := by exact_mod_cast hij
  have hgap := mul_le_mul_of_nonneg_right hone hpos.le
  have hp' := h.isFinite_offset hj hv
  have hp : (s.offset i).isFinite = true :=
    ((h.rounds_offset hi).mono (h.rounds_offset hj) (by linarith) hp' isValue_zero
      (h.mul_step_nonneg i) (neg_lt_zero.2 overflow_pos)).1
  have hlt : value (s.offset i) < value (s.offset j) := by
    have herror := (le_abs_self _).trans (h.abs_offset_sub_le hi hp)
    have herror' := (neg_le_abs _).trans (h.abs_offset_sub_le hj hp')
    linarith
  refine (h.rounds_point hp).mono (h.rounds_point hp') (by linarith) hv (isValue_value h.start)
    (le_add_of_nonneg_right (h.offset_nonneg hi hp)) (abs_lt.1 (abs_value_lt h.start)).1

/-- All points are finite if neither the width nor the end leaves less than a step of room below
the greatest double. -/
theorem isFinite_point (hroom : s.span + value s.step ≤ greatest)
    (hroom' : value s.stop + value s.step ≤ greatest) (hi : i < s.count .float) :
    s.width.isFinite = true ∧ (s.point .float i).isFinite = true := by
  have hpos := h.step_pos
  have hlow := neg_lt_zero.2 overflow_pos
  have hw := (h.rounds_width).isFinite isValue_zero isValue_greatest (h.span_nonneg) (by linarith)
    hlow greatest_lt_overflow
  have hlimit := h.lt_pointLimit hi
  have hstep := h.mul_step_le hw hi
  have hp := (h.rounds_offset hlimit).isFinite isValue_zero isValue_greatest (h.mul_step_nonneg i)
    (by linarith) hlow greatest_lt_overflow
  have hoffset := (le_abs_self _).trans (h.abs_offset_sub_le hlimit hp)
  rw [span] at hstep
  refine ⟨hw, (h.rounds_point hp).isFinite (isValue_value h.start) isValue_greatest
    (le_add_of_nonneg_right (h.offset_nonneg hlimit hp)) (by linarith)
    (abs_lt.1 (abs_value_lt h.start)).1 greatest_lt_overflow⟩

/-- If a point stays within the range, so do those before it. -/
theorem within_mono (hij : i < j) (hj : j < pointLimit) (hv : s.Within (s.point .float j)) :
    s.Within (s.point .float i) := by
  obtain ⟨hfinite, hle⟩ := h.point_mono hij hj hv.1
  exact ⟨hfinite, hle.trans hv.2⟩

theorem last?_eq : s.last? .float = some (s.point .float (s.count .float - 1)) := by
  rw [last?, point?, if_pos (Nat.sub_lt h.count_pos Nat.one_pos)]

end Proper

theorem mem_points (hi : i < s.count .float) : s.point .float i ∈ s.points .float :=
  List.mem_map_of_mem (List.mem_range.2 hi)

theorem forall_mem_points {p : Float → Prop} :
    (∀ v ∈ s.points .float, p v) ↔ ∀ i < s.count .float, p (s.point .float i) := by
  simp only [points, firstPoints, List.mem_map, List.mem_range, forall_exists_index, and_imp,
    forall_apply_eq_imp_iff₂]

/-- The points of a valid sweep of doubles are all finite and no more than a step past the end
exactly if the last one is. They are if a step more than the width, and a step more than the end,
are not greater than the greatest double. As long as the width is not rounded to infinity, finite
points are not farther past the end; if it is, there are as many points as there can be. -/
theorem points_within (s : Sweep Float) (h : s.isValid .float = true) :
    ((∀ v ∈ s.points .float, s.Within v) ↔ ∀ v, s.last? .float = some v → s.Within v) ∧
    (value s.stop - value s.start + value s.step ≤ greatest →
      value s.stop + value s.step ≤ greatest → ∀ v ∈ s.points .float, s.Within v) ∧
    ((Float.sub s.stop s.start).isFinite = true →
      ∀ v ∈ s.points .float, v.isFinite = true → value v ≤ value s.stop + value s.step) ∧
    (¬(Float.sub s.stop s.start).isFinite = true → s.count .float = pointLimit) := by
  have hproper := isValid_iff_proper.1 h
  have hlast := hproper.last?_eq
  have hpos := hproper.count_pos
  simp only [forall_mem_points]
  refine ⟨⟨fun hall v hv => ?_, fun hwithin i hi => ?_⟩, fun hroom hroom' i hi => ?_,
    fun hw i hi hv => hproper.value_point_le hw hi hv,
    fun hw => hproper.count_of_isInfinity (hproper.isInfinity_steps hw)⟩
  · obtain rfl := Option.some.inj (hlast.symm.trans hv)
    exact hall _ (Nat.sub_lt hpos Nat.one_pos)
  · have hend := hwithin _ hlast
    rcases (Nat.le_sub_one_of_lt hi).eq_or_lt with rfl | hlt
    · exact hend
    · exact hproper.within_mono hlt (hproper.lt_pointLimit (Nat.sub_lt hpos Nat.one_pos)) hend
  · obtain ⟨hw, hv⟩ := hproper.isFinite_point hroom hroom' hi
    exact ⟨hv, hproper.value_point_le hw hi hv⟩

theorem points_within_standard :
    standard.isValid .float = true ∧ ∀ v ∈ standard.points .float, standard.Within v := by
  have hvalid : standard.isValid .float = true := by decide +kernel
  have hstart : Binary64.ofFloat (-10) = .finite true ⟨5629499534213120, -49, false⟩ := by rfl
  have hstep : Binary64.ofFloat 0.01 = .finite false ⟨5764607523034235, -59, false⟩ := by rfl
  have hstart' : value (-10) = -10 := by
    rw [value, hstart, Binary64.toRat, if_pos rfl, Magnitude.toRat_value]
    norm_num
  have hstep' : value 0.01 ≤ 1 := by
    rw [value, hstep, Binary64.toRat, if_neg (by decide), Magnitude.toRat_value]
    norm_num
  have hstop : value 10 = 10 := (value_ofNat (n := 10) (by decide)).2
  have hgreatest : (2 : ℚ) ^ 53 - 1 ≤ greatest :=
    le_mul_of_one_le_right (by norm_num) (one_le_zpow₀ one_le_two (by decide))
  refine ⟨hvalid, (points_within standard hvalid).2.1 ?_ ?_⟩
  · show value 10 - value (-10) + value 0.01 ≤ greatest
    linarith
  · show value 10 + value 0.01 ≤ greatest
    linarith

/-- Points leave the range where the width is rounded to infinity. Where it is finite, the last one
does if the tolerance lets it in and its distance from the start is rounded to infinity. -/
theorem exists_not_within :
    ((Sweep.mk (-1e308) 1e308 1.5e308).isValid .float = true ∧
      (Sweep.mk (-1e308) 1e308 1.5e308).count .float = pointLimit ∧
      ∃ v ∈ (Sweep.mk (-1e308) 1e308 1.5e308).points .float, ¬v.isFinite = true) ∧
    ((Sweep.mk 0 1.7976931348623157e308 5.992310449541053e307).isValid .float = true ∧
      (Sweep.mk 0 1.7976931348623157e308 5.992310449541053e307).count .float = 4 ∧
      ∃ v ∈ (Sweep.mk 0 1.7976931348623157e308 5.992310449541053e307).points .float,
        ¬v.isFinite = true) := by
  have hcount : (Sweep.mk (-1e308) 1e308 1.5e308).count .float = pointLimit := by decide +kernel
  have hcount' : (Sweep.mk 0 1.7976931348623157e308 5.992310449541053e307).count .float = 4 := by
    decide +kernel
  exact ⟨⟨by decide +kernel, hcount, _, mem_points (i := 2) (by rw [hcount]; decide),
    by decide +kernel⟩, by decide +kernel, hcount', _, mem_points (i := 3) (by rw [hcount']; decide),
    by decide +kernel⟩

end Ordinate.Sweep

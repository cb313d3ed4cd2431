import Ordinate.Proofs.Double.Operations
import Ordinate.Proofs.Number.Rounding

/-!
# Doubles as rational numbers

* `Binary64.toRat`, `Double.value` : the number which a double denotes;
* `Double.canonical_unpack`, `Double.unpack_pack` : doubles are unpacked to canonical numbers within
  the bounds of the format, and these are packed without a loss;
* `Double.Rounds`, `Double.rounds_add` and its siblings : sums, differences, products and quotients
  of doubles are those of the numbers which they denote, rounded;
* `Double.IsInfinity` : positive infinity, to which numbers that are too large are rounded;
* `Double.value_lt_iff`, `Double.value_le_iff` : the order of doubles is that of the numbers;
* `Double.toUInt64_le`, `Double.value_ofNat` : whole numbers from doubles and as doubles.
-/

namespace Ordinate

/-- The number which a double stands for, if it stands for one. -/
def Binary64.toRat : Binary64 → ℚ
  | finite negative m => if negative then -m.value.toRat else m.value.toRat
  | _ => 0

namespace Double

open Float.Model Float.Model.UnpackedFloat

/-- The number which a double denotes, if it denotes one. -/
def value (v : Float) : ℚ :=
  (Binary64.ofFloat v).toRat

/-! ## Fields of words -/

section Fields

variable (w : BitVec 64)

theorem toNat_unpackMantissa :
    (@unpackMantissa .binary64 w).toNat = w.toNat % 2 ^ 52 := by
  simp only [unpackMantissa, BitVec.toNat_cast, BitVec.extractLsb_toNat, Nat.shiftRight_zero]

theorem toNat_unpackExponent :
    (@unpackExponent .binary64 w).toNat = w.toNat / 2 ^ 52 % 2 ^ 11 := by
  simp only [unpackExponent, BitVec.toNat_cast, BitVec.extractLsb_toNat, Nat.shiftRight_eq_div_pow]

theorem unpackExponent_eq_neg_one_iff :
    @unpackExponent .binary64 w = -1#11 ↔ w.toNat / 2 ^ 52 % 2 ^ 11 = 2047 := by
  rw [← BitVec.toNat_inj, toNat_unpackExponent]
  rfl

theorem unpackExponent_eq_zero_iff :
    @unpackExponent .binary64 w = 0#11 ↔ w.toNat / 2 ^ 52 % 2 ^ 11 = 0 := by
  rw [← BitVec.toNat_inj, toNat_unpackExponent]
  rfl

theorem unpackMantissa_eq_zero_iff :
    @unpackMantissa .binary64 w = 0#52 ↔ w.toNat % 2 ^ 52 = 0 := by
  rw [← BitVec.toNat_inj, toNat_unpackMantissa]
  rfl

theorem signed_unpackSign (q : ℚ) :
    signed (.ofBitVec (@unpackSign .binary64 w)) q = if w.toNat / 2 ^ 63 % 2 = 1 then -q else q := by
  have hbit : (@unpackSign .binary64 w).toNat = w.toNat / 2 ^ 63 % 2 := by
    simp only [unpackSign, BitVec.toNat_cast, BitVec.extractLsb_toNat, Nat.shiftRight_eq_div_pow]
  have hzero : @unpackSign .binary64 w = 0#1 ↔ w.toNat / 2 ^ 63 % 2 = 0 := by
    rw [← BitVec.toNat_inj, hbit]
    rfl
  rw [Sign.ofBitVec]
  split
  · next h =>
    rw [if_neg (by rw [hzero.1 h]; decide)]
    rfl
  · next h =>
    rw [if_pos ((Nat.mod_two_eq_zero_or_one _).resolve_left fun h' => h (hzero.2 h'))]
    rfl

end Fields

/-! ## Bounds -/

theorem abs_signed (s : Sign) (q : ℚ) : |signed s q| = |q| := by
  cases s with
  | negative => exact abs_neg q
  | positive => rfl

/-- The bound of the exponents is a bound of the magnitudes. -/
theorem magnitude_lt_overflow_iff {m : ℕ} {e : ℤ} (hlt : m < 2 ^ 53)
    (hunit : e = -1074 ∨ 2 ^ 52 ≤ m) : (m : ℚ) * 2 ^ e < overflow ↔ e ≤ 971 := by
  constructor
  · intro h
    by_contra hgt
    have hm : (2 : ℚ) ^ 52 ≤ m := by exact_mod_cast hunit.resolve_left (by omega)
    have hpow : (2 : ℚ) ^ (972 : ℤ) ≤ 2 ^ e := zpow_le_zpow_right₀ one_le_two (by omega)
    have hle : overflow ≤ m * 2 ^ e := by
      rw [overflow, show (1024 : ℤ) = 972 + (52 : ℕ) from rfl, two_zpow_add_natCast]
      exact mul_le_mul hm hpow (two_zpow_pos _).le (Nat.cast_nonneg m)
    exact absurd h (not_lt.2 hle)
  · intro hle
    have hm : (m : ℚ) < 2 ^ 53 := by exact_mod_cast hlt
    have hpow : (2 : ℚ) ^ e ≤ 2 ^ (971 : ℤ) := zpow_le_zpow_right₀ one_le_two hle
    rw [overflow, show (1024 : ℤ) = 971 + (53 : ℕ) from rfl, two_zpow_add_natCast]
    exact mul_lt_mul hm hpow (two_zpow_pos e) (by positivity)

theorem overflow_pos : 0 < overflow :=
  two_zpow_pos _

/-! ## Unpacking and packing -/

theorem toRat_ofWord {w : BitVec 64} (h : w.toNat / 2 ^ 52 % 2 ^ 11 ≠ 2047) :
    (Binary64.ofWord w.toNat).toRat = signed (.ofBitVec (@unpackSign .binary64 w))
      (Magnitude.ofFields (w.toNat / 2 ^ 52 % 2 ^ 11) (w.toNat % 2 ^ 52)).value.toRat := by
  have hword : Binary64.ofWord w.toNat = .finite (w.toNat / 2 ^ 63 % 2 = 1)
      (.ofFields (w.toNat / 2 ^ 52 % 2 ^ 11) (w.toNat % 2 ^ 52)) := if_neg h
  rw [hword, signed_unpackSign, Binary64.toRat]
  simp only [decide_eq_true_eq]

theorem toNat_one_append (fraction : BitVec 52) :
    (1#1 ++ fraction).toNat = 2 ^ 52 + fraction.toNat := by
  have hor := Nat.two_pow_add_eq_or_of_lt fraction.isLt 1
  rw [Nat.mul_one] at hor
  rw [BitVec.toNat_append, hor]
  rfl

/-- A word of a number is unpacked to this number. -/
theorem unpack_of_finite {w : BitVec 64} (h : w.toNat / 2 ^ 52 % 2 ^ 11 ≠ 2047) :
    Canonical (UnpackedFloat.unpack .binary64 w) ∧
      unpackedValue (UnpackedFloat.unpack .binary64 w) = (Binary64.ofWord w.toNat).toRat ∧
      |unpackedValue (UnpackedFloat.unpack .binary64 w)| < overflow := by
  have hmantissa := toNat_unpackMantissa w
  have hexponent := toNat_unpackExponent w
  have hfraction : w.toNat % 2 ^ 52 < 2 ^ 52 := Nat.mod_lt _ (by decide)
  have hfield : w.toNat / 2 ^ 52 % 2 ^ 11 < 2 ^ 11 := Nat.mod_lt _ (by decide)
  rw [toRat_ofWord h, Magnitude.toRat_value]
  unfold UnpackedFloat.unpack
  extract_lets mantissa exponentVec exponent signVec sign
  rw [if_neg (mt (unpackExponent_eq_neg_one_iff w).1 h)]
  by_cases hzero : w.toNat / 2 ^ 52 % 2 ^ 11 = 0
  · rw [if_pos ((unpackExponent_eq_zero_iff w).2 hzero), Magnitude.ofFields, if_pos hzero]
    split
    · next hm =>
      rw [(unpackMantissa_eq_zero_iff w).1 hm]
      refine ⟨.zero _, ?_, ?_⟩
      · rw [unpackedValue_zero, Nat.cast_zero, zero_mul, signed_zero]
      · rw [unpackedValue_zero, abs_zero]
        exact overflow_pos
    · next hm =>
      have hexp : exponent + 1 = -1074 := by
        show (exponentVec.toNat : ℤ) - ((1023 : ℕ) + (52 : ℕ)) + 1 = -1074
        rw [hexponent, hzero]
        rfl
      have hlt : mantissa.toNat < 2 ^ 53 := mantissa.isLt.trans (by decide)
      refine ⟨.finite sign _ hlt hexp.ge (.inl hexp), ?_, ?_⟩
      · rw [unpackedValue_finite, hexp, hmantissa]
      · rw [unpackedValue_finite, abs_signed, abs_of_nonneg (by positivity),
          magnitude_lt_overflow_iff hlt (.inl hexp), hexp]
        decide
  · rw [if_neg (mt (unpackExponent_eq_zero_iff w).1 hzero), Magnitude.ofFields, if_neg hzero]
    have hexp : exponent = (w.toNat / 2 ^ 52 % 2 ^ 11 : ℕ) - 1075 := by
      show (exponentVec.toNat : ℤ) - ((1023 : ℕ) + (52 : ℕ)) = _
      rw [hexponent]
      rfl
    have hm : (1#1 ++ mantissa).toNat = 2 ^ 52 + w.toNat % 2 ^ 52 := by
      rw [toNat_one_append, hmantissa]
    have hlt : (1#1 ++ mantissa).toNat < 2 ^ 53 := by omega
    have hunit : exponent = -1074 ∨ 2 ^ 52 ≤ (1#1 ++ mantissa).toNat := .inr (by omega)
    refine ⟨.finite sign _ hlt (by omega) hunit, ?_, ?_⟩
    · rw [unpackedValue_finite, hm, hexp]
      rfl
    · rw [unpackedValue_finite, abs_signed, abs_of_nonneg (by positivity),
        magnitude_lt_overflow_iff hlt hunit]
      omega

section Pack

variable (s : Sign) {m : ℕ} {e : ℤ}

theorem finite_congr {s : Sign} {m m' : ℕ} {e e' : ℤ} {hm : 0 < m} {hm' : 0 < m'} (h : m = m')
    (h' : e = e') : UnpackedFloat.finite s m e hm = .finite s m' e' hm' := by
  subst h h'
  rfl

theorem pack_finite (hm : 0 < m) :
    UnpackedFloat.pack .binary64 (.finite s m e hm) =
      if 2 ^ 11 ≤ (e + 1075).toNat + 1 then packedInfinity .binary64 s
      else if m.log2 = 52 then
        packComponents .binary64 s (BitVec.ofNat 11 (e + 1075).toNat) (BitVec.ofNat 52 m)
      else packComponents .binary64 s 0 (BitVec.ofNat 52 m) := by
  have hbias : e + (1023 : ℕ) + (52 : ℕ) = e + 1075 := by omega
  have hbits : m.log2 + 1 = 53 ↔ m.log2 = 52 := by omega
  show (if 2 ^ 11 ≤ (e + (1023 : ℕ) + (52 : ℕ)).toNat + 1 then _
    else if m.log2 + 1 = 53 then packComponents .binary64 s
      (BitVec.ofNat 11 (e + (1023 : ℕ) + (52 : ℕ)).toNat) (BitVec.ofNat 52 m) else _) = _
  rw [hbias, if_congr hbits rfl rfl]
  rfl

theorem unpack_subnormal (hm : 0 < m) (hlt : m < 2 ^ 52) :
    UnpackedFloat.unpack .binary64 (packComponents .binary64 s 0 (BitVec.ofNat 52 m)) =
      .finite s m (-1074) hm := by
  have hfraction : (BitVec.ofNat 52 m).toNat = m := by
    rw [BitVec.toNat_ofNat, Nat.mod_eq_of_lt hlt]
  have hne : BitVec.ofNat 52 m ≠ 0#52 := by
    intro h
    rw [h] at hfraction
    exact absurd hfraction.symm hm.ne'
  unfold UnpackedFloat.unpack
  simp only [unpackMantissa_packComponents, unpackExponent_packComponents,
    unpackSign_packComponents, Sign.ofBitVec_toBitVec]
  rw [if_neg (by decide), if_pos (show (0 : BitVec 11) = 0#11 from rfl), dif_neg hne]
  exact finite_congr hfraction rfl

theorem unpack_normal (hm : 0 < m) (hle : 2 ^ 52 ≤ m) (hlt : m < 2 ^ 53) (he : -1074 ≤ e)
    (he' : e ≤ 971) :
    UnpackedFloat.unpack .binary64 (packComponents .binary64 s (BitVec.ofNat 11 (e + 1075).toNat)
      (BitVec.ofNat 52 m)) = .finite s m e hm := by
  have hexponent : (BitVec.ofNat 11 (e + 1075).toNat).toNat = (e + 1075).toNat := by
    rw [BitVec.toNat_ofNat, Nat.mod_eq_of_lt (by omega)]
  have hne : BitVec.ofNat 11 (e + 1075).toNat ≠ -1#11 := by
    intro h
    rw [h, show (-1#11).toNat = 2047 from rfl] at hexponent
    omega
  have hne' : BitVec.ofNat 11 (e + 1075).toNat ≠ 0#11 := by
    intro h
    rw [h, show (0#11).toNat = 0 from rfl] at hexponent
    omega
  unfold UnpackedFloat.unpack
  simp only [unpackMantissa_packComponents, unpackExponent_packComponents,
    unpackSign_packComponents, Sign.ofBitVec_toBitVec]
  rw [if_neg hne, if_neg hne']
  apply finite_congr
  · rw [toNat_one_append, BitVec.toNat_ofNat]
    omega
  · show ((BitVec.ofNat 11 (e + 1075).toNat).toNat : ℤ) - ((1023 : ℕ) + (52 : ℕ)) = e
    rw [hexponent]
    omega

end Pack

/-- A canonical number within the bounds of the format is packed without a loss. -/
theorem unpack_pack {f : UnpackedFloat} (hf : Canonical f) (h : |unpackedValue f| < overflow) :
    UnpackedFloat.unpack .binary64 (UnpackedFloat.pack .binary64 f) = f := by
  cases hf with
  | zero s => exact unpack_packedZero
  | @finite s m e hm hlt he hunit =>
    rw [unpackedValue_finite, abs_signed, abs_of_nonneg (magnitude_pos hm e).le,
      magnitude_lt_overflow_iff hlt hunit] at h
    rw [pack_finite, if_neg (by omega)]
    by_cases hfull : 2 ^ 52 ≤ m
    · rw [if_pos ((Nat.log2_eq_iff hm.ne').2 ⟨hfull, hlt⟩)]
      exact unpack_normal s hm hfull hlt he h
    · obtain rfl : e = -1074 := hunit.resolve_right hfull
      rw [if_neg fun hlog => hfull ((Nat.log2_eq_iff hm.ne').1 hlog).1]
      exact unpack_subnormal s hm (not_le.1 hfull)

theorem unpack_packedInfinity (s : Sign) :
    UnpackedFloat.unpack .binary64 (packedInfinity .binary64 s) = .infinity s := by
  simp [UnpackedFloat.unpack, packedInfinity]

/-- Beyond these bounds it is packed as an infinity. -/
theorem unpack_pack_of_overflow_le {f : UnpackedFloat} (hf : Canonical f)
    (h : overflow ≤ |unpackedValue f|) :
    ∃ s, UnpackedFloat.unpack .binary64 (UnpackedFloat.pack .binary64 f) = .infinity s ∧
      unpackedValue f = signed s |unpackedValue f| := by
  cases hf with
  | zero s =>
    rw [unpackedValue_zero, abs_zero] at h
    exact absurd overflow_pos (not_lt.2 h)
  | @finite s m e hm hlt he hunit =>
    have hpos := (magnitude_pos hm e).le
    rw [unpackedValue_finite, abs_signed, abs_of_nonneg hpos] at h ⊢
    have hlarge : ¬e ≤ 971 := fun hle =>
      absurd h (not_le.2 ((magnitude_lt_overflow_iff hlt hunit).2 hle))
    refine ⟨s, ?_, rfl⟩
    rw [pack_finite, if_pos (by omega)]
    exact unpack_packedInfinity s

/-! ## Doubles -/

section Double

variable {v : Float}

theorem isFinite_iff : v.isFinite = true ↔ v.toBits.toNat / 2 ^ 52 % 2 ^ 11 ≠ 2047 := by
  show v.toModel.unpack.isFinite = true ↔ _
  constructor
  · intro h hfield
    have hexponent := (unpackExponent_eq_neg_one_iff v.toModel.toBits.toBitVec).2 hfield
    unfold Float.Model.unpack UnpackedFloat.unpack at h
    extract_lets _ _ exponentVec _ _ at h
    rw [if_pos hexponent] at h
    split at h <;> cases h
  · intro h
    exact (unpack_of_finite h).1.isFinite

theorem canonical_unpack (h : v.isFinite = true) : Canonical v.toModel.unpack :=
  (unpack_of_finite (isFinite_iff.1 h)).1

theorem unpackedValue_unpack (h : v.isFinite = true) : unpackedValue v.toModel.unpack = value v :=
  (unpack_of_finite (isFinite_iff.1 h)).2.1

theorem abs_value_lt (h : v.isFinite = true) : |value v| < overflow := by
  rw [← unpackedValue_unpack h]
  exact (unpack_of_finite (isFinite_iff.1 h)).2.2

theorem isValue_value (h : v.isFinite = true) : IsValue (value v) := by
  rw [← unpackedValue_unpack h]
  exact (canonical_unpack h).isValue

/-- The double is positive infinity. -/
def IsInfinity (v : Float) : Prop :=
  v.toModel.unpack = .infinity .positive

theorem not_isFinite_of_unpack {s : Sign} (h : v.toModel.unpack = .infinity s) :
    ¬v.isFinite = true := by
  show ¬v.toModel.unpack.isFinite = true
  rw [h]
  exact nofun

/-- The double `v` is the number `r`, rounded: it denotes the nearest value, or is infinite if that
is beyond the bounds. -/
def Rounds (r : ℚ) (v : Float) : Prop :=
  ∃ y, Nearest r y ∧ (|y| < overflow → v.isFinite = true ∧ value v = y) ∧
    (overflow ≤ |y| → ∃ s, v.toModel.unpack = .infinity s ∧ y = signed s |y|)

theorem rounds_of_roundedTo {r : ℚ} {f : UnpackedFloat} (h : RoundedTo r f) :
    Rounds r (.ofModel (.pack f)) := by
  refine ⟨unpackedValue f, h.nearest, fun hlt => ?_, unpack_pack_of_overflow_le h.canonical⟩
  have hunpack : (Float.ofModel (.pack f)).toModel.unpack = f := unpack_pack h.canonical hlt
  have hfinite : (Float.ofModel (.pack f)).isFinite = true :=
    (congrArg UnpackedFloat.isFinite hunpack).trans h.canonical.isFinite
  refine ⟨hfinite, ?_⟩
  rw [← unpackedValue_unpack hfinite, hunpack]

namespace Rounds

variable {r r' c c' : ℚ} {v' : Float}

theorem nearest (h : Rounds r v) (hv : v.isFinite = true) : Nearest r (value v) := by
  obtain ⟨y, hy, hlt, hle⟩ := h
  rcases lt_or_ge |y| overflow with hbound | hbound
  · rw [(hlt hbound).2]
    exact hy
  · obtain ⟨s, hs, -⟩ := hle hbound
    exact absurd hv (not_isFinite_of_unpack hs)

theorem value_eq (h : Rounds r v) (hr : IsValue r) (hbound : |r| < overflow) :
    v.isFinite = true ∧ value v = r := by
  obtain ⟨y, hy, hlt, -⟩ := h
  obtain rfl := hy.eq_of_isValue hr
  exact hlt hbound

/-- A number between two doubles is rounded to a double. -/
theorem isFinite (h : Rounds r v) (hc : IsValue c) (hc' : IsValue c') (hlow : c ≤ r) (hhigh : r ≤ c')
    (hbound : -overflow < c) (hbound' : c' < overflow) : v.isFinite = true := by
  obtain ⟨y, hy, hlt, -⟩ := h
  refine (hlt (abs_lt.2 ⟨?_, ?_⟩)).1
  · exact hbound.trans_le (hy.le_of_ge hc hlow)
  · exact (hy.le_of_le hc' hhigh).trans_lt hbound'

/-- Below a number which is rounded to a double, rounding keeps the order. -/
theorem mono (h : Rounds r v) (h' : Rounds r' v') (hlt : r < r') (hv' : v'.isFinite = true)
    (hc : IsValue c) (hlow : c ≤ r) (hbound : -overflow < c) :
    v.isFinite = true ∧ value v ≤ value v' := by
  obtain ⟨y, hy, hy', -⟩ := h
  have hle : y ≤ value v' := hy.mono (h'.nearest hv') hlt
  have hlt' : y < overflow := hle.trans_lt (abs_lt.1 (abs_value_lt hv')).2
  obtain ⟨hv, hvalue⟩ := hy' (abs_lt.2 ⟨hbound.trans_le (hy.le_of_ge hc hlow), hlt'⟩)
  exact ⟨hv, hvalue.trans_le hle⟩

/-- A number which is not negative and too large is rounded to infinity. -/
theorem isInfinity (h : Rounds r v) (hr : 0 ≤ r) (hv : ¬v.isFinite = true) : IsInfinity v := by
  obtain ⟨y, hy, hlt, hle⟩ := h
  have hbound : overflow ≤ |y| := not_lt.1 fun hbound => hv (hlt hbound).1
  obtain ⟨s, hs, hsigned⟩ := hle hbound
  cases s with
  | positive => exact hs
  | negative =>
    have hnonneg := hy.nonneg hr
    rw [signed] at hsigned
    linarith [overflow_pos]

theorem nonneg_or_isInfinity (h : Rounds r v) (hr : 0 ≤ r) :
    (v.isFinite = true ∧ 0 ≤ value v) ∨ IsInfinity v := by
  by_cases hv : v.isFinite = true
  · exact .inl ⟨hv, (h.nearest hv).nonneg hr⟩
  · exact .inr (h.isInfinity hr hv)

end Rounds

/-! ## Operations -/

section Operations

variable {a b : Float} (ha : a.isFinite = true) (hb : b.isFinite = true)

include ha hb

theorem rounds_add : Rounds (value a + value b) (Float.add a b) := by
  rw [← unpackedValue_unpack ha, ← unpackedValue_unpack hb]
  exact rounds_of_roundedTo (roundedTo_add (canonical_unpack ha) (canonical_unpack hb))

theorem rounds_sub : Rounds (value a - value b) (Float.sub a b) := by
  rw [← unpackedValue_unpack ha, ← unpackedValue_unpack hb]
  exact rounds_of_roundedTo (roundedTo_sub (canonical_unpack ha) (canonical_unpack hb))

theorem rounds_mul : Rounds (value a * value b) (Float.mul a b) := by
  rw [← unpackedValue_unpack ha, ← unpackedValue_unpack hb]
  exact rounds_of_roundedTo (roundedTo_mul (canonical_unpack ha) (canonical_unpack hb))

theorem rounds_div (hne : value b ≠ 0) : Rounds (value a / value b) (Float.div a b) := by
  rw [← unpackedValue_unpack hb] at hne
  rw [← unpackedValue_unpack ha, ← unpackedValue_unpack hb]
  exact rounds_of_roundedTo (roundedTo_div (canonical_unpack ha) (canonical_unpack hb) hne)

theorem value_lt_iff : a < b ↔ value a < value b := by
  rw [← unpackedValue_unpack ha, ← unpackedValue_unpack hb,
    ← lt_iff (canonical_unpack ha) (canonical_unpack hb)]
  exact decide_eq_true_iff

theorem value_le_iff : a ≤ b ↔ value a ≤ value b := by
  rw [← unpackedValue_unpack ha, ← unpackedValue_unpack hb,
    ← le_iff (canonical_unpack ha) (canonical_unpack hb)]
  exact decide_eq_true_iff

end Operations

/-! ## Infinity -/

namespace IsInfinity

variable {a b : Float}

theorem not_isFinite (h : IsInfinity v) : ¬v.isFinite = true :=
  not_isFinite_of_unpack h

theorem ofModel : IsInfinity (.ofModel (.pack (.infinity .positive))) :=
  unpack_packedInfinity .positive

theorem add_eq_pack (a b : Float) : Float.add a b =
    .ofModel (.pack (UnpackedFloat.add .binary64 a.toModel.unpack b.toModel.unpack)) := rfl

theorem add_right (ha : a.isFinite = true) (hb : IsInfinity b) : IsInfinity (Float.add a b) := by
  rw [add_eq_pack, hb, add_infinity (canonical_unpack ha)]
  exact ofModel

theorem add_left (ha : IsInfinity a) (hb : b.isFinite = true) : IsInfinity (Float.add a b) := by
  rw [add_eq_pack, ha, infinity_add _ (canonical_unpack hb)]
  exact ofModel

theorem div (ha : IsInfinity a) (hb : b.isFinite = true) (hpos : 0 < value b) :
    IsInfinity (Float.div a b) := by
  have hquotient : Float.div a b =
      .ofModel (.pack (UnpackedFloat.div .binary64 a.toModel.unpack b.toModel.unpack)) := rfl
  rw [← unpackedValue_unpack hb] at hpos
  rw [hquotient, ha, infinity_div (canonical_unpack hb) hpos]
  exact ofModel

theorem le (ha : a.isFinite = true) (hb : IsInfinity b) : a ≤ b := by
  have hle : a.toModel.unpack.le b.toModel.unpack = true := by
    rw [hb]
    exact le_infinity (canonical_unpack ha)
  exact decide_eq_true_iff.2 hle

end IsInfinity

/-! ## Whole numbers -/

theorem toNat_ofNatClamp_le (n : ℕ) : (UInt64.ofNatClamp n).toNat ≤ n := by
  unfold UInt64.ofNatClamp
  split
  · exact le_of_eq (UInt64.toNat_ofNatLT ..)
  · next h => exact not_lt.1 h |> (Nat.sub_le _ 1).trans

/-- Truncation of a number which is not negative does not go up. -/
theorem toUInt64_le (h : v.isFinite = true) : ((v.toUInt64.toNat : ℕ) : ℚ) ≤ max (value v) 0 := by
  have hclamp : v.toUInt64.toNat ≤ (v.toModel.unpack.toInt 0 (UInt64.size - 1)).toNat :=
    toNat_ofNatClamp_le _
  have hvalue := toNat_toInt_le (canonical_unpack h) (UInt64.size - 1)
  rw [unpackedValue_unpack h] at hvalue
  exact (Nat.cast_le.2 hclamp).trans hvalue

theorem value_one : (1 : Float).isFinite = true ∧ value 1 = 1 := by
  have hone : Binary64.ofFloat 1 = .finite false ⟨2 ^ 52, -52, true⟩ := by rfl
  refine ⟨by decide +kernel, ?_⟩
  rw [value, hone, Binary64.toRat, if_neg (by decide), Magnitude.toRat_value]
  norm_num

theorem natCast_lt_overflow {n : ℕ} (h : n < 2 ^ 53) : (n : ℚ) < overflow := by
  have hpow : (2 : ℚ) ^ (53 : ℤ) ≤ overflow := zpow_le_zpow_right₀ one_le_two (by decide)
  have hn : (n : ℚ) < 2 ^ (53 : ℤ) := by exact_mod_cast h
  exact hn.trans_le hpow

theorem Rounds.value_le {r : ℚ} (h : Rounds r v) (hr : 0 ≤ r) {n : ℕ} (hn : n < 2 ^ 53)
    (hle : r ≤ n) :
    v.isFinite = true ∧ 0 ≤ value v ∧ value v ≤ r + r / 2 ^ 53 + least / 2 := by
  have hv := h.isFinite isValue_zero (isValue_natCast hn.le) hr hle (neg_lt_zero.2 overflow_pos)
    (natCast_lt_overflow hn)
  have herror := (h.nearest hv).abs_sub_le
  rw [abs_of_nonneg hr] at herror
  exact ⟨hv, (h.nearest hv).nonneg hr, by linarith [le_abs_self (value v - r)]⟩

theorem value_ofNat {n : ℕ} (h : n < 2 ^ 53) :
    (Float.ofNat n).isFinite = true ∧ value (Float.ofNat n) = n := by
  have hbound : |(n : ℚ)| < overflow := by
    rw [Nat.abs_cast]
    exact natCast_lt_overflow h
  have hcast : n.toUInt64.toNat = n := UInt64.toNat_ofNat_of_lt' (h.trans (by decide))
  have hrounds : Rounds n n.toUInt64.toFloat := by
    have hnormalize := roundedTo_normalize n 0 .positive
    rw [zpow_zero, mul_one, Int.cast_natCast] at hnormalize
    have hfloat : n.toUInt64.toFloat =
        .ofModel (.pack (UnpackedFloat.normalize .binary64 n 0 .positive)) := by
      show Float.ofModel
        (.pack (UnpackedFloat.normalize .binary64 (n.toUInt64.toNat : ℕ) 0 .positive)) = _
      rw [hcast]
    rw [hfloat]
    exact rounds_of_roundedTo hnormalize
  obtain ⟨hfinite, hvalue⟩ := hrounds.value_eq (isValue_natCast h.le) hbound
  have hmul : Float.ofNat n = Float.mul n.toUInt64.toFloat 1 := by
    have hpower : Float.exactlyRepresentablePowersOfTen[0] = 1 := by decide +kernel
    rw [← hpower]
    unfold Float.ofNat
    simp only [OfScientific.ofScientific]
    unfold Float.ofScientific
    rw [dif_pos ⟨h, by decide⟩]
    rfl
  have hproduct := rounds_mul hfinite value_one.1
  rw [hvalue, value_one.2, mul_one, ← hmul] at hproduct
  exact hproduct.value_eq (isValue_natCast h.le) hbound

end Double

end Double

end Ordinate

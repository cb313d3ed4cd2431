import Mathlib
import Ordinate.Proofs.Number.Accepted
import Ordinate.Proofs.Number.Shortest

/-!
# Spellings read back

* `Literal.readDecimal_point`, `Literal.readDecimal_plain` : the decimal which is read from digits
  with and without a point;
* `Decimal.exists_readDecimal_positional`, `Decimal.readDecimal_scientific` : both spellings of a
  decimal read as what it denotes;
* `Literal.read_spellChars` : the normal spelling of a double reads as that double.
-/

namespace Ordinate

namespace Literal

/-! ## Digits -/

theorem takeWhile_isDigit {digits rest : List Char} (h : ∀ c ∈ digits, c.isDigit)
    (hrest : ∀ c ∈ rest.head?, c.isDigit = false) :
    (digits ++ rest).takeWhile Char.isDigit = digits := by
  rw [List.takeWhile_append_of_pos h, List.takeWhile_eq_nil_iff.2, List.append_nil]
  intro hlen
  simp [hrest rest[0] (by simp [List.head?_eq_getElem?])]

theorem dropWhile_isDigit {digits rest : List Char} (h : ∀ c ∈ digits, c.isDigit)
    (hrest : ∀ c ∈ rest.head?, c.isDigit = false) :
    (digits ++ rest).dropWhile Char.isDigit = rest := by
  have hsplit := List.takeWhile_append_dropWhile (p := Char.isDigit) (l := digits ++ rest)
  rw [takeWhile_isDigit h hrest] at hsplit
  exact List.append_cancel_left hsplit

theorem digitsValue_append (a b : List Char) :
    digitsValue (a ++ b) = 10 ^ b.length * digitsValue a + digitsValue b := by
  rw [digitsValue, Nat.ofDigitChars_append, Nat.ofDigitChars_eq_ofDigitChars_zero]
  rfl

theorem digitsValue_replicate_zero (n : Nat) : digitsValue (List.replicate n '0') = 0 := by
  rw [digitsValue, Nat.ofDigitChars_replicate_zero, Nat.mul_zero]

theorem digitsValue_toDigits (n : Nat) : digitsValue (Nat.toDigits 10 n) = n :=
  Nat.ofDigitChars_ten_toDigits

theorem isDigit_of_mem_toDigits {n : Nat} {c : Char} (h : c ∈ Nat.toDigits 10 n) : c.isDigit :=
  Nat.isDigit_of_mem_toDigits (by decide) le_rfl h

theorem isDigit_of_mem_replicate {n : Nat} {c : Char} (h : c ∈ List.replicate n '0') :
    c.isDigit := by
  rw [List.eq_of_mem_replicate h]
  rfl

theorem splitSign_of_isDigit {cs : List Char} (h : ∀ c ∈ cs.head?, c.isDigit) :
    splitSign cs = (false, cs) := by
  unfold splitSign
  split
  · exact absurd (h '+' rfl) (by decide)
  · exact absurd (h '-' rfl) (by decide)
  · rfl

/-! ## Exponents -/

theorem isDigit_head?_of_readExponent {cs : List Char} {e : Int} (h : readExponent cs = some e) :
    ∀ c ∈ cs.head?, c.isDigit = false := by
  cases cs with
  | nil => nofun
  | cons c cs =>
    unfold readExponent at h
    dsimp only at h
    split at h
    · next hmark =>
      intro d hd
      cases hd
      rcases hmark.1 with rfl | rfl <;> decide
    · cases h

theorem readExponent_signedChars (n : Int) :
    readExponent ('e' :: Decimal.signedChars n) = some n := by
  have hdigits : (Nat.toDigits 10 n.natAbs).all Char.isDigit :=
    List.all_eq_true.2 fun c => isDigit_of_mem_toDigits
  have hne : Nat.toDigits 10 n.natAbs ≠ [] := Nat.toDigits_ne_nil
  unfold Decimal.signedChars
  split
  · next hneg =>
    simp [readExponent, splitSign, hdigits, hne, digitsValue_toDigits, abs_of_neg hneg]
  · next hnonneg =>
    have hsign : splitSign (Nat.toDigits 10 n.natAbs) = (false, Nat.toDigits 10 n.natAbs) :=
      splitSign_of_isDigit fun c hc => isDigit_of_mem_toDigits (List.mem_of_mem_head? hc)
    simp [readExponent, hsign, hdigits, hne, digitsValue_toDigits, abs_of_nonneg (not_lt.1 hnonneg)]

/-! ## Decimals -/

theorem readDecimal_point {whole fraction exponent : List Char} {e : Int}
    (hwhole : ∀ c ∈ whole, c.isDigit) (hfraction : ∀ c ∈ fraction, c.isDigit)
    (hne : whole ≠ [] ∨ fraction ≠ []) (he : readExponent exponent = some e) :
    readDecimal (whole ++ '.' :: (fraction ++ exponent)) =
      some ⟨digitsValue (whole ++ fraction), e - fraction.length⟩ := by
  have hpoint : ∀ c ∈ ('.' :: (fraction ++ exponent)).head?, c.isDigit = false := by
    intro c hc
    cases hc
    rfl
  have hexponent := isDigit_head?_of_readExponent he
  unfold readDecimal
  rw [takeWhile_isDigit hwhole hpoint, dropWhile_isDigit hwhole hpoint]
  simp only [splitFraction]
  rw [takeWhile_isDigit hfraction hexponent, dropWhile_isDigit hfraction hexponent,
    if_neg fun h => hne.elim (· h.1) (· h.2), he]
  rfl

theorem readDecimal_plain {whole exponent : List Char} {e : Int} (hwhole : ∀ c ∈ whole, c.isDigit)
    (hne : whole ≠ []) (he : readExponent exponent = some e) :
    readDecimal (whole ++ exponent) = some ⟨digitsValue whole, e⟩ := by
  have hexponent := isDigit_head?_of_readExponent he
  have hpoint : splitFraction exponent = ([], exponent) := by
    unfold splitFraction
    split
    · next cs =>
      unfold readExponent at he
      simp at he
    · rfl
  unfold readDecimal
  rw [takeWhile_isDigit hwhole hexponent, dropWhile_isDigit hwhole hexponent]
  simp only [hpoint]
  rw [if_neg fun h => hne h.1, he]
  simp

end Literal

namespace Decimal

open Literal

variable (d : Decimal)

theorem isDigit_of_mem_digitChars {c : Char} (h : c ∈ d.digitChars) : c.isDigit :=
  isDigit_of_mem_toDigits h

theorem digitsValue_digitChars : digitsValue d.digitChars = d.digits :=
  digitsValue_toDigits d.digits

theorem digitChars_ne_nil : d.digitChars ≠ [] :=
  Nat.toDigits_ne_nil

/-- Digits with a point among them read as the number written by all of them. -/
theorem readDecimal_digitChars_point {whole fraction exponent : List Char} {e : Int} {n : Nat}
    (hdigits : whole ++ fraction = List.replicate n '0' ++ d.digitChars) (hne : whole ≠ [])
    (he : readExponent exponent = some e) :
    readDecimal (whole ++ '.' :: (fraction ++ exponent)) =
      some ⟨d.digits, e - fraction.length⟩ := by
  have hall : ∀ c ∈ whole ++ fraction, c.isDigit := by
    rw [hdigits, List.forall_mem_append]
    exact ⟨fun c => isDigit_of_mem_replicate, fun c => d.isDigit_of_mem_digitChars⟩
  obtain ⟨hwhole, hfraction⟩ := List.forall_mem_append.1 hall
  rw [readDecimal_point hwhole hfraction (.inl hne) he, hdigits, digitsValue_append,
    digitsValue_replicate_zero, digitsValue_digitChars, Nat.mul_zero, Nat.zero_add]

/-- The positional spelling reads as what the decimal denotes; zeros before the point become digits
of a decimal with another exponent. -/
theorem exists_readDecimal_positional :
    ∃ d', readDecimal d.positional = some d' ∧ d'.value.toRat = d.value.toRat := by
  have hplace : d.pointPlace = d.digitChars.length + d.exponent := rfl
  unfold positional
  dsimp only
  split_ifs with hleft hright
  · refine ⟨d, ?_, rfl⟩
    have hread := @readDecimal_digitChars_point d ['0']
      (List.replicate (-d.pointPlace).toNat '0' ++ d.digitChars) [] 0 ((-d.pointPlace).toNat + 1)
      (by rw [List.replicate_succ]; rfl) (List.cons_ne_nil _ _) rfl
    have hexponent : (0 : Int) -
        (List.replicate (-d.pointPlace).toNat '0' ++ d.digitChars).length = d.exponent := by
      rw [List.length_append, List.length_replicate]
      omega
    rwa [List.append_nil, hexponent] at hread
  · have hexponent : (d.exponent.toNat : Int) = d.exponent := by omega
    have hall : ∀ c ∈ d.digitChars ++ List.replicate d.exponent.toNat '0', c.isDigit := by
      rw [List.forall_mem_append]
      exact ⟨fun c => d.isDigit_of_mem_digitChars, fun c => isDigit_of_mem_replicate⟩
    have hzero : ∀ c ∈ List.replicate 1 '0', c.isDigit := fun c => isDigit_of_mem_replicate
    have hread := @readDecimal_point (d.digitChars ++ List.replicate d.exponent.toNat '0') ['0'] [] 0
      hall hzero (.inr (List.cons_ne_nil _ _)) rfl
    refine ⟨_, hread, ?_⟩
    rw [digitsValue_append, digitsValue_append, digitsValue_replicate_zero, digitsValue_digitChars,
      toRat_value, toRat_value, List.length_replicate, ← hexponent, Int.toNat_natCast]
    show ((10 ^ 1 * (10 ^ d.exponent.toNat * d.digits + 0) + 0 : Nat) : ℚ) * 10 ^ (-1 : Int) = _
    push_cast
    rw [zpow_natCast, zpow_neg_one]
    ring
  · refine ⟨d, ?_, rfl⟩
    have hne : d.digitChars.take d.pointPlace.toNat ≠ [] := by
      rw [Ne, List.take_eq_nil_iff, not_or]
      exact ⟨by omega, d.digitChars_ne_nil⟩
    have hread := @readDecimal_digitChars_point d (d.digitChars.take d.pointPlace.toNat)
      (d.digitChars.drop d.pointPlace.toNat) [] 0 0 (List.take_append_drop _ _)
      hne rfl
    have hexponent : (0 : Int) - (d.digitChars.drop d.pointPlace.toNat).length = d.exponent := by
      rw [List.length_drop]
      omega
    rwa [List.append_nil, hexponent] at hread

theorem readDecimal_scientific : readDecimal d.scientific = some d := by
  have hplace : d.pointPlace = d.digitChars.length + d.exponent := rfl
  have hexponent := readExponent_signedChars (d.pointPlace - 1)
  unfold scientific
  dsimp only
  split
  · next first second rest hchars =>
    have hread := @readDecimal_digitChars_point d [first] (second :: rest) _ _ 0 hchars.symm
      (List.cons_ne_nil _ _) hexponent
    have hvalue : d.pointPlace - 1 - (second :: rest).length = d.exponent := by
      rw [hplace, hchars]
      simp only [List.length_cons]
      omega
    rwa [hvalue] at hread
  · next hchars =>
    have hlength : d.digitChars.length = 1 := by
      match h : d.digitChars with
      | [] => exact absurd h d.digitChars_ne_nil
      | [_] => rfl
      | first :: second :: rest => exact absurd h (hchars first second rest)
    rw [readDecimal_plain (fun c => d.isDigit_of_mem_digitChars) d.digitChars_ne_nil hexponent,
      digitsValue_digitChars]
    have hvalue : d.pointPlace - 1 = d.exponent := by omega
    rw [hvalue]

end Decimal

/-! ## Words of doubles -/

theorem toBits_of_nan {v : Float} (he : v.toBits.toNat / 2 ^ 52 % 2 ^ 11 = 2047)
    (hf : v.toBits.toNat % 2 ^ 52 ≠ 0) : v.toBits = UInt64.ofNat (infinityWord + 2 ^ 51) := by
  have hvalid := v.toModel.valid.eq_packedNaN
  apply UInt64.toBitVec_inj.1
  refine (hvalid ?_ ?_).trans (by decide)
  · apply BitVec.eq_of_toNat_eq
    simp only [Float.Model.UnpackedFloat.unpackExponent, BitVec.toNat_cast, BitVec.extractLsb_toNat,
      Nat.shiftRight_eq_div_pow]
    exact he
  · intro h
    have hzero := congrArg BitVec.toNat h
    simp only [Float.Model.UnpackedFloat.unpackMantissa, BitVec.toNat_cast,
      BitVec.extractLsb_toNat, Nat.shiftRight_zero] at hzero
    exact hf hzero

/-- A double is given by its sign and the word of its magnitude. -/
theorem floatOfWord_eq {v : Float} {negative : Bool} {w : Nat}
    (h : v.toBits.toNat = if negative then 2 ^ 63 + w else w) : floatOfWord negative w = v := by
  rw [floatOfWord, Nat.pow_eq, ← h, UInt64.ofNat_toNat, Float.ofBits_toBits]

namespace Literal

/-! ## Doubles -/

theorem exists_readDecimal_spellDecimal (d : Decimal) :
    ∃ d', readDecimal (spellDecimal d) = some d' ∧ d'.value.toRat = d.value.toRat := by
  unfold spellDecimal
  split
  · exact d.exists_readDecimal_positional
  · exact ⟨d, d.readDecimal_scientific, rfl⟩

theorem read_spellSign (negative : Bool) {cs : List Char} {u : Unsigned}
    (hsign : splitSign cs = (false, cs)) (haccepts : acceptsChars cs)
    (h : readUnsigned cs = some u) :
    read (spellSign negative ++ cs) = some (u.toFloat negative) := by
  have hsplit : splitSign (spellSign negative ++ cs) = (negative, cs) := by
    cases negative
    · exact hsign
    · rfl
  have hread : acceptsChars (spellSign negative ++ cs) := by
    rwa [acceptsChars_iff, hsplit, ← congrArg Prod.snd hsign, ← acceptsChars_iff]
  rw [read, if_pos hread, readFloat, hsplit]
  exact congrArg (Option.map _) h

theorem splitSign_of_readDecimal {cs : List Char} {d : Decimal} (h : readDecimal cs = some d) :
    splitSign cs = (false, cs) := by
  unfold splitSign
  split
  · cases h
  · cases h
  · rfl

theorem read_spellSign_of_readDecimal (negative : Bool) {cs : List Char} {d : Decimal}
    (h : readDecimal cs = some d) :
    read (spellSign negative ++ cs) = some (d.toFloat negative) :=
  have hsign := splitSign_of_readDecimal h
  read_spellSign negative hsign (acceptsChars_iff.2 (.inr (.inr ⟨d, by rw [hsign, h]⟩)))
    (readUnsigned_of_readDecimal h)

/-- A magnitude's shortest decimal, however it is spelt, reads as the word of the magnitude. -/
theorem read_spellDecimal_shortest (negative : Bool) {exponent fraction : Nat}
    (he : exponent < 2047) (hf : fraction < 2 ^ 52) :
    read (spellSign negative ++ spellDecimal (Magnitude.ofFields exponent fraction).shortest) =
      some (floatOfWord negative (exponent * 2 ^ 52 + fraction)) := by
  obtain ⟨d, hread, hvalue⟩ :=
    exists_readDecimal_spellDecimal (Magnitude.ofFields exponent fraction).shortest
  rw [read_spellSign_of_readDecimal negative hread, Decimal.toFloat]
  congr 2
  by_cases hm : (Magnitude.ofFields exponent fraction).significand = 0
  · have hzero : d.digits = 0 := by
      rw [Magnitude.shortest, if_pos hm, Decimal.toRat_value, Decimal.toRat_value] at hvalue
      have hunit : (10 : ℚ) ^ d.exponent ≠ 0 := by positivity
      simpa [hunit] using hvalue
    have hfields : exponent = 0 ∧ fraction = 0 := by
      unfold Magnitude.ofFields at hm
      split at hm <;> simp only [Nat.pow_eq] at hm <;> omega
    rw [Decimal.nearestWord, if_pos hzero, hfields.1, hfields.2, Nat.zero_mul]
  · have hrounds := Magnitude.rounds_congr hvalue.symm (Magnitude.rounds_shortest hm)
    exact Decimal.nearestWord_of_rounds he hf hm hrounds

/-- The normal spelling of a double reads as that double, whatever its word. -/
theorem read_spellChars (v : Float) : read (spellChars v) = some v := by
  have hword : v.toBits.toNat < 2 ^ 64 := v.toBits.toNat_lt
  have hsign : v.toBits.toNat = if decide (v.toBits.toNat / 2 ^ 63 % 2 = 1) then
      2 ^ 63 + (v.toBits.toNat / 2 ^ 52 % 2 ^ 11 * 2 ^ 52 + v.toBits.toNat % 2 ^ 52)
      else v.toBits.toNat / 2 ^ 52 % 2 ^ 11 * 2 ^ 52 + v.toBits.toNat % 2 ^ 52 := by
    simp only [decide_eq_true_eq]
    split <;> omega
  unfold spellChars Binary64.ofFloat Binary64.ofWord
  simp only [Nat.pow_eq]
  generalize hnegative : decide (v.toBits.toNat / 2 ^ 63 % 2 = 1) = negative at hsign ⊢
  split_ifs with hexponent hfraction
  · rw [hexponent, hfraction] at hsign
    have hinfinity : readUnsigned infinityName = some .infinity := rfl
    exact (read_spellSign negative rfl rfl hinfinity).trans (congrArg some (floatOfWord_eq hsign))
  · have hbits := toBits_of_nan hexponent hfraction
    refine congrArg some (floatOfWord_eq ?_)
    rw [hbits]
    rfl
  · have hlt : v.toBits.toNat / 2 ^ 52 % 2 ^ 11 < 2047 := by omega
    exact (read_spellDecimal_shortest negative hlt (Nat.mod_lt _ (by decide))).trans
      (congrArg some (floatOfWord_eq hsign))

theorem head?_spellChars (v : Float) : (spellChars v).head? ≠ some '+' := by
  have hdecimal : ∀ d, (spellDecimal d).head? ≠ some '+' := by
    intro d hd
    obtain ⟨d', hread, -⟩ := exists_readDecimal_spellDecimal d
    obtain ⟨cs, hcs⟩ := List.head?_eq_some_iff.1 hd
    rw [hcs] at hread
    cases hread
  unfold spellChars
  split
  · decide
  · next negative _ => cases negative <;> decide
  · next negative m _ =>
    cases negative with
    | false => exact hdecimal m.shortest
    | true =>
      show some '-' ≠ some '+'
      decide

end Literal

end Ordinate

import Mathlib.Data.List.TakeWhile
import Ordinate.Literal

/-!
# The scan of literals against the reader

* `Literal.exists_readExponent_iff`, `Literal.exists_readDecimal_iff` : the scan passes to the end of
  the exponents and of the decimals which can be read;
* `Literal.acceptsChars_iff` : so the literals are names and decimals behind a sign;
* `Literal.exists_readFloat`, `Literal.isSome_value?` : each literal is read as a double.
-/

namespace Ordinate.Literal

/-! ## The pieces of a decimal -/

theorem passDigits_iff {cs : List Char} :
    (passDigits cs).1 ≠ 0 ∧ (passDigits cs).2 = [] ↔ cs ≠ [] ∧ cs.all Char.isDigit := by
  have hdrop : cs.dropWhile Char.isDigit = [] ↔ cs.all Char.isDigit := by
    rw [List.dropWhile_eq_nil_iff, List.all_eq_true]
  simp only [passDigits, hdrop, List.length_eq_zero_iff, ne_eq]
  refine and_congr_left fun hall => not_congr ?_
  rw [List.takeWhile_eq_self_iff.2 (List.all_eq_true.1 hall)]

theorem exists_readExponent_iff {cs : List Char} :
    (∃ e, readExponent cs = some e) ↔ passExponent? cs = some [] := by
  cases cs with
  | nil => exact iff_of_true ⟨0, rfl⟩ rfl
  | cons c cs =>
    simp only [readExponent, passExponent?]
    have hdigits := @passDigits_iff (splitSign cs).2
    by_cases hmark : c = 'e' ∨ c = 'E'
    · rw [if_pos hmark]
      simp only [hmark, true_and, ← hdigits]
      split_ifs <;> simp_all
    · simp [hmark]

theorem passFraction_eq (cs : List Char) :
    passFraction cs = ((splitFraction cs).1.length, (splitFraction cs).2) := by
  unfold passFraction splitFraction
  split <;> rfl

theorem exists_readDecimal_iff {cs : List Char} :
    (∃ d, readDecimal cs = some d) ↔ passDecimal? cs = some [] := by
  simp only [readDecimal, passDecimal?, passDigits, passFraction_eq, Nat.add_eq_zero_iff,
    List.length_eq_zero_iff]
  split_ifs
  · exact iff_of_false nofun nofun
  · rw [← exists_readExponent_iff]
    simp only [Option.map_eq_some_iff]
    exact ⟨fun ⟨_, e, he, _⟩ => ⟨e, he⟩, fun ⟨e, he⟩ => ⟨_, e, he, rfl⟩⟩

/-! ## Literals -/

theorem acceptsChars_iff {cs : List Char} :
    acceptsChars cs ↔ (splitSign cs).2 = nanName ∨ (splitSign cs).2 = infinityName ∨
      ∃ d, readDecimal (splitSign cs).2 = some d := by
  rw [exists_readDecimal_iff, acceptsChars, decide_eq_true_iff]

theorem isDigit_or_eq_of_readDecimal {c : Char} {cs : List Char} {d : Decimal}
    (h : readDecimal (c :: cs) = some d) : c.isDigit ∨ c = '.' := by
  by_contra hc
  obtain ⟨hdigit, hpoint⟩ := not_or.1 hc
  have hfraction : splitFraction (c :: cs) = ([], c :: cs) := by
    unfold splitFraction
    split
    · next hcons => exact absurd (List.cons.inj hcons).1 hpoint
    · rfl
  simp [readDecimal, hdigit, hfraction] at h

theorem toLower_of_isDigit {c : Char} (h : c.isDigit) : c.toLower = c := by
  have hupper : ¬(c.val ≥ 'A'.val ∧ c.val ≤ 'Z'.val) := by
    have hdigit : 48 ≤ c.toNat ∧ c.toNat ≤ 57 := by
      simpa [Char.isDigit, UInt32.le_iff_toNat_le] using h
    simp only [ge_iff_le, UInt32.le_iff_toNat_le, not_and]
    exact fun hlow => absurd (hlow.trans hdigit.2) (by decide)
  exact dif_neg hupper

theorem readUnsigned_of_readDecimal {cs : List Char} {d : Decimal} (h : readDecimal cs = some d) :
    readUnsigned cs = some (.decimal d) := by
  cases cs with
  | nil => cases h
  | cons c cs =>
    have hlower : c.toLower = c := by
      obtain hdigit | rfl := isDigit_or_eq_of_readDecimal h
      · exact toLower_of_isDigit hdigit
      · rfl
    have hi : c ≠ 'i' ∧ c ≠ 'n' := by
      constructor <;> rintro rfl <;> exact absurd (isDigit_or_eq_of_readDecimal h) (by decide)
    simp [readUnsigned, hlower, hi, h]

theorem exists_readFloat {cs : List Char} (h : acceptsChars cs) : ∃ v, readFloat cs = some v := by
  obtain hname | hname | ⟨d, hd⟩ := acceptsChars_iff.1 h
  · exact ⟨Unsigned.nan.toFloat (splitSign cs).1, by simp only [readFloat, hname]; rfl⟩
  · exact ⟨Unsigned.infinity.toFloat (splitSign cs).1, by simp only [readFloat, hname]; rfl⟩
  · exact ⟨d.toFloat (splitSign cs).1, by
      simp only [readFloat, readUnsigned_of_readDecimal hd]; rfl⟩

theorem exists_read_iff_acceptsChars {cs : List Char} :
    (∃ v, read cs = some v) ↔ acceptsChars cs := by
  unfold read
  split_ifs with h
  · exact iff_of_true (exists_readFloat h) h
  · exact iff_of_false nofun h

theorem exists_value?_iff {text : String} : (∃ v, value? text = some v) ↔ accepts text :=
  exists_read_iff_acceptsChars

theorem isSome_value? (text : String) : (value? text).isSome = accepts text :=
  Bool.eq_iff_iff.2 (Option.isSome_iff_exists.trans exists_value?_iff)

end Ordinate.Literal

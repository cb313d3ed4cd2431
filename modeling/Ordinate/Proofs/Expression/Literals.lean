import Ordinate.Proofs.Number.Spelling
import Ordinate.Proofs.Parse.Outcome

/-!
# Literals and their values

* `isNaN_ofBits_or` : the word of a double is the one it is made from, unless it is a NaN;
* `Literal.value?_spell`, `Literal.spell_reads_back` : the normal spelling of a double is a literal
  with that double as its value;
* `Expression.ofText_of_accepts` : a text which is a literal is an expression with one node and the
  literal's value, unless it starts with a plus.
-/

namespace Ordinate

open Parse

/-! ## Words -/

/-- A word which is not the one of its double has the fields of a NaN. -/
theorem valid_or_unpack_eq (format : Float.Model.Format) (word : BitVec format.numBits) :
    format.Valid word ∨ Float.Model.UnpackedFloat.unpack format word = .notANumber := by
  by_cases he : Float.Model.UnpackedFloat.unpackExponent word = -BitVec.ofNat format.exponentBits 1
  · by_cases hm : Float.Model.UnpackedFloat.unpackMantissa word =
        BitVec.ofNat format.mantissaBitsWithoutImplicit 0
    · exact .inl ⟨fun _ hne => absurd hm hne⟩
    · right
      unfold Float.Model.UnpackedFloat.unpack
      rw [if_pos he, if_neg hm]
  · exact .inl ⟨fun he' => absurd he' he⟩

/-- Only a word of a NaN stands for a double with another word. -/
theorem isNaN_ofBits_or (w : UInt64) :
    (Float.ofBits w).isNaN = true ∨ (Float.ofBits w).toBits = w := by
  rcases valid_or_unpack_eq .binary64 w.toBitVec with hvalid | hunpack
  · exact .inr (congrArg Float.toBits (Float.ofBits_toBits ⟨⟨w, hvalid⟩⟩))
  · left
    unfold Float.ofBits Float.Model.ofBits
    rw [hunpack]
    decide

namespace Literal

/-! ## Normal spellings -/

@[simp] theorem value?_spell (v : Float) : value? (spell v) = some v := by
  unfold value? spell
  rw [String.toList_ofList, read_spellChars]

@[simp] theorem accepts_spell (v : Float) : accepts (spell v) = true := by
  rw [← isSome_value?, value?_spell]
  rfl

/-- The normal spelling of the double with any word is a literal, and reads as that double: with the
same word, if it is not a NaN, and else as a NaN. So the label of a double has its value, and a text
in normal spelling is spelt as it is. -/
theorem spell_reads_back (w : UInt64) :
    accepts (spell (Float.ofBits w)) = true ∧
      (∃ v, value? (spell (Float.ofBits w)) = some v ∧
        if (Float.ofBits w).isNaN then v.isNaN = true else v.toBits = w) ∧
      (Label.ofFloat (Float.ofBits w)).value? = some (Float.ofBits w) ∧
      (value? (spell (Float.ofBits w))).map spell = some (spell (Float.ofBits w)) := by
  have hvalue : value? (spell (Float.ofBits w)) = some (Float.ofBits w) := value?_spell _
  refine ⟨accepts_spell _, ⟨Float.ofBits w, hvalue, ?_⟩, hvalue, ?_⟩
  · split
    · assumption
    · next hnan => exact (isNaN_ofBits_or w).resolve_left hnan
  · rw [hvalue]
    rfl

end Literal

namespace Parse

variable {limits : Limits}

/-! ## Texts which are literals -/

theorem outcome_of_read {text : List Char} {v : Float} (h : Literal.read text = some v)
    (hplus : text.head? ≠ some '+') (hlength : text.length ≤ limits.length) :
    outcome limits text = .ok (.leaf (.ofFloat v)) := by
  rw [outcome_of_admitted hlength (Literal.balanced_of_read h)]
  apply Reads.resultAt_eq
  exact (reads_literal h 0).of_operand (Literal.split?_eq_none h hplus) _

/-- A plus at the start of a text is an operator without a left operand. -/
theorem outcome_of_plus {text : List Char} (hbalanced : Balanced 0 ('+' :: text))
    (hlength : ('+' :: text).length ≤ limits.length) :
    outcome limits ('+' :: text) = .error .noRule := by
  have hsplit : Precedence.sum.split? ('+' :: text) = some ⟨[], .add, text⟩ :=
    Precedence.split?_eq_some_iff.2 ⟨rfl, rfl, rfl, rfl⟩
  have hfirst : Precedence.sum.splitFrom? ('+' :: text) = some (.sum, ⟨[], .add, text⟩) :=
    Precedence.splitFrom?_eq_some_iff.2
      ⟨Nat.le_refl _, hsplit, fun q _ hq => absurd hq (Nat.not_lt_zero _)⟩
  rw [outcome_of_admitted hlength hbalanced, resultAt_of_splitFrom?_eq_some hfirst,
    if_pos (.inl rfl)]

end Parse

namespace Expression

variable {limits : Limits} {text : String}

theorem stripped_of_read {v : Float} (h : Literal.read text.toList = some v) :
    stripped text = text.toList :=
  Text.stripBlank_eq_self (Literal.isBlank_of_read h)

theorem value_single_ofFloat (v x : Float) : (single (.ofFloat v)).value x = v := by
  unfold value
  rw [evaluate_eq]
  show (Literal.value? (Literal.spell v)).getD 0 = v
  rw [Literal.value?_spell]
  rfl

/-- A text within the limit of the length which is a literal is an expression with one node, which
is labelled with the literal's value and worth that everywhere; but one which starts with a plus is
refused, because no rule fits. -/
theorem ofText_of_accepts (limits : Limits) (h : Literal.accepts text = true)
    (hlength : text.length ≤ limits.length) :
    ∃ v, Literal.value? text = some v ∧
      (ofText text limits =
        if text.toList.head? = some '+' then refused text .noRule else .ok (single (.ofFloat v))) ∧
      (Label.ofFloat v).value? = some v ∧ ∀ x, (single (.ofFloat v)).value x = v := by
  obtain ⟨v, hv⟩ := Literal.exists_value?_iff.2 h
  have hread : Literal.read text.toList = some v := hv
  refine ⟨v, hv, ?_, Literal.value?_spell v, value_single_ofFloat v⟩
  rw [ofText_eq, stripped_of_read hread]
  split_ifs with hplus
  · obtain ⟨cs, hcs⟩ := List.head?_eq_some_iff.1 hplus
    rw [hcs, outcome_of_plus (hcs ▸ Literal.balanced_of_read hread) (hcs ▸ hlength)]
  · rw [outcome_of_read hread hplus hlength]
    rfl

theorem ofText_of_accepts_point :
    ∃ v, Literal.value? "-4.e-3" = some v ∧ ofText "-4.e-3" {} = .ok (single (.ofFloat v)) ∧
      ∀ x, (single (.ofFloat v)).value x = v := by
  have haccepts : Literal.accepts "-4.e-3" = true := by decide +kernel
  obtain ⟨v, hv, htext, -, hvalue⟩ := ofText_of_accepts {} haccepts (by decide)
  exact ⟨v, hv, htext.trans (if_neg (by decide)), hvalue⟩

theorem ofText_plus_three :
    Literal.accepts "+3" = true ∧ (Literal.value? "+3").map Literal.spell = some "3.0" ∧
      ofText "+3" {} = refused "+3" .noRule := by
  decide +kernel

end Expression

end Ordinate

import Ordinate.Proofs.Literal
import Ordinate.Proofs.Number.Spelling

/-!
# The grammar of literals

* `Literal.exists_readExponent`, `Literal.exists_readDecimal` : exponents and decimals of the
  grammar are read to their ends;
* `Literal.exists_read_iff` : the texts which are read are those of the grammar;
* `Literal.accepts_iff` : so these are the literals, and the texts which have a value.
-/

namespace Ordinate.Literal

theorem splitSign_append {sign body : List Char} (h : IsSign sign)
    (hbody : splitSign body = (false, body)) :
    ∃ negative, splitSign (sign ++ body) = (negative, body) := by
  cases h with
  | none => exact ⟨false, hbody⟩
  | plus => exact ⟨false, rfl⟩
  | minus => exact ⟨true, rfl⟩

theorem exists_readExponent {cs : List Char} (h : IsExponent cs) :
    ∃ e, readExponent cs = some e := by
  cases h with
  | none => exact ⟨0, rfl⟩
  | @mark e sign digits hmark is_sign ne are_digits =>
    have hplain : splitSign digits = (false, digits) :=
      splitSign_of_isDigit fun c hc => are_digits c (List.mem_of_mem_head? hc)
    obtain ⟨negative, hsign⟩ := splitSign_append is_sign hplain
    unfold readExponent
    dsimp only
    rw [hsign]
    exact ⟨_, if_pos ⟨hmark, ne, List.all_eq_true.2 are_digits⟩⟩

theorem exists_readDecimal {mantissa exponent : List Char} (hm : IsMantissa mantissa)
    (he : IsExponent exponent) : ∃ d, readDecimal (mantissa ++ exponent) = some d := by
  obtain ⟨e, hread⟩ := exists_readExponent he
  cases hm with
  | plain ne are_digits => exact ⟨_, readDecimal_plain are_digits ne hread⟩
  | point ne are_digits fraction_digits =>
    rw [List.append_assoc]
    exact ⟨_, readDecimal_point are_digits fraction_digits (.inl ne) hread⟩
  | bare ne fraction_digits =>
    have hwhole : ∀ c ∈ ([] : List Char), c.isDigit := nofun
    exact ⟨_, readDecimal_point hwhole fraction_digits (.inr ne) hread⟩

theorem acceptsChars_append {sign body : List Char} (hsign : IsSign sign)
    (hbody : IsUnsigned body) : acceptsChars (sign ++ body) := by
  rw [acceptsChars_iff]
  cases hbody with
  | nan =>
    obtain ⟨negative, hsplit⟩ := @splitSign_append _ nanName hsign rfl
    exact .inl (congrArg Prod.snd hsplit)
  | infinity =>
    obtain ⟨negative, hsplit⟩ := @splitSign_append _ infinityName hsign rfl
    exact .inr (.inl (congrArg Prod.snd hsplit))
  | decimal is_mantissa is_exponent =>
    obtain ⟨d, hd⟩ := exists_readDecimal is_mantissa is_exponent
    obtain ⟨negative, hsplit⟩ := splitSign_append hsign (splitSign_of_readDecimal hd)
    exact .inr (.inr ⟨d, by rw [hsplit, hd]⟩)

theorem exists_read_iff {cs : List Char} : (∃ v, read cs = some v) ↔ IsLiteral cs := by
  refine ⟨fun ⟨v, h⟩ => isLiteral_of_read h, fun ⟨hsign, hbody⟩ => ?_⟩
  exact exists_read_iff_acceptsChars.2 (acceptsChars_append hsign hbody)

/-- A text is a literal, and a text has a value, exactly if it is a sign, which may be missing, and
then `NaN`, `Infinity` or a decimal: digits, which a point and further digits may follow, or a point
and digits, and behind either there may be an exponent. -/
theorem accepts_iff (text : String) :
    (accepts text = true ↔ IsLiteral text.toList) ∧
      ((∃ v, value? text = some v) ↔ IsLiteral text.toList) :=
  ⟨exists_value?_iff.symm.trans exists_read_iff, exists_read_iff⟩

example : ["4.", "+.5e-3", "-Infinity"].all accepts ∧
    ["", ".", ".e5", "1e+", "+-1"].all fun text => !accepts text := by
  decide +kernel

end Ordinate.Literal

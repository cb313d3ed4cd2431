import Mathlib.Data.List.TakeWhile
import Mathlib.Tactic.IntervalCases
import Ordinate.Proofs.Number.Accepted
import Ordinate.Proofs.Parse.Scan
import Ordinate.Text.Blank

/-!
# The form of literals

* `Literal.IsMantissa`, `Literal.IsExponent`, `Literal.IsLiteral` : the grammar of literals;
* `Literal.isLiteral_of_read` : what is read has that form;
* `Literal.mem_chars` : the characters of literals;
* `Literal.split?_eq_none` : a literal splits at no operator, unless it starts with a plus.
-/

namespace Ordinate.Literal

open Parse

/-! ## Forms -/

/-- The texts of signs, which may be missing. -/
inductive IsSign : List Char → Prop
  | none : IsSign []
  | plus : IsSign ['+']
  | minus : IsSign ['-']

inductive IsExponent : List Char → Prop
  | none : IsExponent []
  | mark {e : Char} {sign digits : List Char} (mark : e = 'e' ∨ e = 'E') (is_sign : IsSign sign)
      (digits_ne : digits ≠ []) (are_digits : ∀ c ∈ digits, c.isDigit) :
      IsExponent (e :: (sign ++ digits))

/-- The texts of mantissas: digits, which a point and further digits may follow, or a point and
digits. -/
inductive IsMantissa : List Char → Prop
  | plain {whole : List Char} (ne : whole ≠ []) (are_digits : ∀ c ∈ whole, c.isDigit) :
      IsMantissa whole
  | point {whole fraction : List Char} (ne : whole ≠ []) (are_digits : ∀ c ∈ whole, c.isDigit)
      (fraction_digits : ∀ c ∈ fraction, c.isDigit) : IsMantissa (whole ++ '.' :: fraction)
  | bare {fraction : List Char} (ne : fraction ≠ []) (fraction_digits : ∀ c ∈ fraction, c.isDigit) :
      IsMantissa ('.' :: fraction)

/-- The texts of literals without a sign: a name, or a mantissa and an exponent. -/
inductive IsUnsigned : List Char → Prop
  | nan : IsUnsigned nanName
  | infinity : IsUnsigned infinityName
  | decimal {mantissa exponent : List Char} (is_mantissa : IsMantissa mantissa)
      (is_exponent : IsExponent exponent) : IsUnsigned (mantissa ++ exponent)

/-- The texts of literals. -/
inductive IsLiteral : List Char → Prop
  | mk {sign body : List Char} (is_sign : IsSign sign) (is_unsigned : IsUnsigned body) :
      IsLiteral (sign ++ body)

theorem exists_sign (cs : List Char) : ∃ sign, IsSign sign ∧ cs = sign ++ (splitSign cs).2 := by
  unfold splitSign
  split
  · exact ⟨['+'], .plus, rfl⟩
  · exact ⟨['-'], .minus, rfl⟩
  · exact ⟨[], .none, rfl⟩

theorem isExponent_of_readExponent {cs : List Char} {i : Int} (h : readExponent cs = some i) :
    IsExponent cs := by
  cases cs with
  | nil => exact .none
  | cons e cs =>
    obtain ⟨sign, hsign, hcs⟩ := exists_sign cs
    unfold readExponent at h
    dsimp only at h
    split at h
    · next hmark =>
      obtain ⟨he, hne, hdigits⟩ := hmark
      rw [hcs]
      exact .mark he hsign hne (List.all_eq_true.1 hdigits)
    · cases h

theorem isMantissaChar_of_isDigit {c : Char} (h : c.isDigit) : isMantissaChar c := by
  rw [isMantissaChar, h, Bool.true_or]

theorem IsMantissa.isMantissaChar {cs : List Char} (h : IsMantissa cs) :
    ∀ c ∈ cs, isMantissaChar c := by
  have hdigits : ∀ digits : List Char, (∀ c ∈ digits, c.isDigit) →
      ∀ c ∈ digits, Parse.isMantissaChar c := fun _ h c hc => isMantissaChar_of_isDigit (h c hc)
  cases h with
  | plain _ are_digits => exact hdigits _ are_digits
  | point _ are_digits fraction_digits =>
    rw [List.forall_mem_append, List.forall_mem_cons]
    exact ⟨hdigits _ are_digits, rfl, hdigits _ fraction_digits⟩
  | bare _ fraction_digits =>
    rw [List.forall_mem_cons]
    exact ⟨rfl, hdigits _ fraction_digits⟩

theorem IsMantissa.exists_digit {cs : List Char} (h : IsMantissa cs) :
    ∃ c ∈ cs, Char.isDigit c := by
  cases h with
  | plain ne are_digits | point ne are_digits _ =>
    obtain ⟨c, hc⟩ := List.exists_mem_of_ne_nil _ ne
    exact ⟨c, by simp [hc], are_digits c hc⟩
  | bare ne fraction_digits =>
    obtain ⟨c, hc⟩ := List.exists_mem_of_ne_nil _ ne
    exact ⟨c, by simp [hc], fraction_digits c hc⟩

theorem splitFraction_eq_or (cs : List Char) :
    (∃ rest, cs = '.' :: rest) ∨ splitFraction cs = ([], cs) := by
  unfold splitFraction
  split
  · next rest => exact .inl ⟨rest, rfl⟩
  · exact .inr rfl

theorem exists_mantissa_of_readDecimal {cs : List Char} {d : Decimal}
    (h : readDecimal cs = some d) :
    ∃ mantissa exponent, cs = mantissa ++ exponent ∧ IsMantissa mantissa ∧ IsExponent exponent := by
  have hdigits : ∀ cs : List Char, ∀ c ∈ cs.takeWhile Char.isDigit, c.isDigit := fun _ =>
    List.all_eq_true.1 List.all_takeWhile
  have hcs := List.takeWhile_append_dropWhile (p := Char.isDigit) (l := cs)
  have hwhole := hdigits cs
  unfold readDecimal at h
  dsimp only at h
  generalize cs.takeWhile Char.isDigit = whole at h hcs hwhole
  generalize cs.dropWhile Char.isDigit = behind at h hcs
  split at h
  · cases h
  · next hne =>
    obtain ⟨i, hi, -⟩ := Option.map_eq_some_iff.1 h
    have hexponent := isExponent_of_readExponent hi
    obtain ⟨rest, rfl⟩ | hplain := splitFraction_eq_or behind
    · have hrest := List.takeWhile_append_dropWhile (p := Char.isDigit) (l := rest)
      have hfraction := hdigits rest
      refine ⟨whole ++ '.' :: rest.takeWhile Char.isDigit, rest.dropWhile Char.isDigit, ?_, ?_,
        hexponent⟩
      · rw [← hcs, List.append_assoc, List.cons_append, hrest]
      · cases whole with
        | nil => exact .bare (fun hnil => hne ⟨rfl, hnil⟩) hfraction
        | cons c whole => exact .point (List.cons_ne_nil c whole) hwhole hfraction
    · rw [hplain] at hne hexponent
      exact ⟨whole, behind, hcs.symm, .plain (fun hnil => hne ⟨hnil, rfl⟩) hwhole, hexponent⟩

theorem isLiteral_of_read {cs : List Char} {v : Float} (h : read cs = some v) : IsLiteral cs := by
  obtain ⟨sign, hsign, hcs⟩ := exists_sign cs
  rw [hcs]
  refine .mk hsign ?_
  obtain hname | hname | ⟨d, hd⟩ := acceptsChars_iff.1 (exists_read_iff_acceptsChars.1 ⟨v, h⟩)
  · rw [hname]
    exact .nan
  · rw [hname]
    exact .infinity
  · obtain ⟨mantissa, exponent, heq, hmantissa, hexponent⟩ := exists_mantissa_of_readDecimal hd
    rw [heq]
    exact .decimal hmantissa hexponent

/-! ## Characters -/

def mantissaChars : List Char :=
  ['0', '1', '2', '3', '4', '5', '6', '7', '8', '9', '.']

def chars : List Char :=
  mantissaChars ++ ['+', '-', 'e', 'E', 'N', 'a', 'I', 'n', 'f', 'i', 't', 'y']

theorem mem_mantissaChars {c : Char} (h : isMantissaChar c) : c ∈ mantissaChars := by
  rw [isMantissaChar, Bool.or_eq_true, decide_eq_true_eq] at h
  rcases h with h | rfl
  · have hrange : 48 ≤ c.toNat ∧ c.toNat ≤ 57 := by
      simpa [Char.isDigit, UInt32.le_iff_toNat_le] using h
    rw [← Char.ofNat_toNat c]
    generalize c.toNat = n at hrange
    obtain ⟨hlow, hhigh⟩ := hrange
    interval_cases n <;> decide
  · decide

theorem mem_chars_of_isMantissaChar {c : Char} (h : isMantissaChar c) : c ∈ chars :=
  List.mem_append_left _ (mem_mantissaChars h)

theorem IsSign.mem_chars {cs : List Char} (h : IsSign cs) : ∀ c ∈ cs, c ∈ chars := by
  cases h <;> exact forall_mem_of_all (by decide)

theorem IsExponent.mem_chars {cs : List Char} (h : IsExponent cs) : ∀ c ∈ cs, c ∈ chars := by
  cases h with
  | none => nofun
  | mark he hsign _ hdigits =>
    rw [List.forall_mem_cons, List.forall_mem_append]
    refine ⟨?_, hsign.mem_chars, fun c hc =>
      mem_chars_of_isMantissaChar (isMantissaChar_of_isDigit (hdigits c hc))⟩
    rcases he with rfl | rfl <;> decide

theorem IsUnsigned.mem_chars {cs : List Char} (h : IsUnsigned cs) : ∀ c ∈ cs, c ∈ chars := by
  cases h with
  | nan => exact forall_mem_of_all (by decide)
  | infinity => exact forall_mem_of_all (by decide)
  | decimal hmantissa hexponent =>
    rw [List.forall_mem_append]
    exact ⟨fun c hc => mem_chars_of_isMantissaChar (hmantissa.isMantissaChar c hc),
      hexponent.mem_chars⟩

theorem mem_chars {cs : List Char} {v : Float} (h : read cs = some v) : ∀ c ∈ cs, c ∈ chars := by
  obtain ⟨hsign, hbody⟩ := isLiteral_of_read h
  rw [List.forall_mem_append]
  exact ⟨hsign.mem_chars, hbody.mem_chars⟩

theorem isBlank_of_mem_chars : ∀ c ∈ chars, Text.isBlank c = false :=
  forall_mem_of_all (by decide)

theorem ne_paren_of_mem_chars : ∀ c ∈ chars, c ≠ '(' ∧ c ≠ ')' :=
  forall_mem_of_all (by decide)

theorem isBlank_of_read {cs : List Char} {v : Float} (h : read cs = some v) :
    ∀ c ∈ cs, Text.isBlank c = false := fun c hc => isBlank_of_mem_chars c (mem_chars h c hc)

theorem ne_paren_of_read {cs : List Char} {v : Float} (h : read cs = some v) :
    ∀ c ∈ cs, c ≠ '(' ∧ c ≠ ')' := fun c hc => ne_paren_of_mem_chars c (mem_chars h c hc)

theorem balanced_of_read {cs : List Char} {v : Float} (h : read cs = some v) : Balanced 0 cs :=
  .of_forall (ne_paren_of_read h)

/-! ## Ends -/

theorem closes_of_isMantissaChar {cs : List Char} (hne : cs ≠ [])
    (h : ∀ c ∈ cs, isMantissaChar c) : Closes cs := by
  have hchars : ∀ c ∈ mantissaChars, c ∉ ['e', 'E', '*', '+', '/', '^', '-'] :=
    forall_mem_of_all (by decide)
  exact closes_of_forall hne fun c hc => hchars c (mem_mantissaChars (h c hc))

theorem IsUnsigned.closes {cs : List Char} (h : IsUnsigned cs) : Closes cs := by
  cases h with
  | nan => exact ⟨['N', 'a'], 'N', rfl, by decide⟩
  | infinity => exact ⟨['I', 'n', 'f', 'i', 'n', 'i', 't'], 'y', rfl, by decide⟩
  | decimal hmantissa hexponent =>
    cases hexponent with
    | none =>
      obtain ⟨c, hc, -⟩ := hmantissa.exists_digit
      rw [List.append_nil]
      exact closes_of_isMantissaChar (List.ne_nil_of_mem hc) hmantissa.isMantissaChar
    | mark _ _ hne hdigits =>
      rw [← List.singleton_append, ← List.append_assoc, ← List.append_assoc]
      exact (closes_of_isMantissaChar hne fun c hc =>
        isMantissaChar_of_isDigit (hdigits c hc)).append _

theorem closes {cs : List Char} {v : Float} (h : read cs = some v) : Closes cs := by
  obtain ⟨-, hbody⟩ := isLiteral_of_read h
  exact hbody.closes.append _

/-! ## Splits -/

theorem ne_char_of_isMantissaChar {c : Char} (h : isMantissaChar c) :
    ∀ op ∈ Operator.all, c ≠ op.char := by
  have hchars : ∀ c ∈ mantissaChars, ∀ op ∈ Operator.all, c ≠ op.char :=
    forall_mem_of_all (by decide)
  exact hchars c (mem_mantissaChars h)

/-- A sign right behind the mark of an exponent is none of the operators. -/
theorem operatorAt?_of_endsInExponentMark {before : List Char} (h : endsInExponentMark before)
    (p : Precedence) {c : Char} (hc : c = '+' ∨ c = '-') : p.operatorAt? before c = none := by
  have hminus : admitsMinus before = false := by
    cases before with
    | nil => rfl
    | cons e before => rw [admitsMinus, h, Bool.not_true, Bool.and_false]
  cases p with
  | sum => simp [Precedence.operatorAt?, h, hminus]
  | product | power => rcases hc with rfl | rfl <;> rfl

theorem endsInExponentMark_of_mantissa {mantissa : List Char}
    (hmantissa : ∀ c ∈ mantissa, isMantissaChar c) (hdigit : ∃ c ∈ mantissa, Char.isDigit c)
    {e : Char} (he : e = 'e' ∨ e = 'E') : endsInExponentMark (e :: mantissa.reverse) := by
  have hall : ∀ c ∈ mantissa.reverse, isMantissaChar c := fun c hc =>
    hmantissa c (List.mem_reverse.1 hc)
  rw [endsInExponentMark, List.takeWhile_eq_self_iff.2 hall, List.dropWhile_eq_nil_iff.2 hall,
    List.any_reverse, List.any_eq_true.2 hdigit]
  rcases he with rfl | rfl <;> rfl

theorem IsUnsigned.split?_eq_none {cs : List Char} (h : IsUnsigned cs) (p : Precedence) :
    p.split? cs = none := by
  cases h with
  | nan => exact Precedence.scan_eq_none_of_forall (forall_mem_of_all (by decide)) p 0 []
  | infinity => exact Precedence.scan_eq_none_of_forall (forall_mem_of_all (by decide)) p 0 []
  | @decimal mantissa exponent is_mantissa hexponent =>
    have hmantissa := is_mantissa.isMantissaChar
    have hplain : ∀ {cs : List Char}, (∀ c ∈ cs, isMantissaChar c) → ∀ depth before,
        p.scan depth before cs = none := fun h depth before =>
      Precedence.scan_eq_none_of_forall (fun c hc => ne_char_of_isMantissaChar (h c hc)) p _ _
    rw [Precedence.split?, Precedence.scan_append_of_none (hplain hmantissa 0 []), List.append_nil]
    cases hexponent with
    | none => rfl
    | @mark e sign digits he hsign _ hdigits =>
      have hmark := endsInExponentMark_of_mantissa hmantissa is_mantissa.exists_digit he
      have hdigits : ∀ c ∈ digits, isMantissaChar c := fun c hc =>
        isMantissaChar_of_isDigit (hdigits c hc)
      have hate : ∀ depth before, p.splitAt? depth before e = none := fun depth before => by
        have hne : ∀ op : Operator, e ≠ op.char := by
          rcases he with rfl | rfl <;> intro op <;> cases op <;> decide
        rw [Precedence.splitAt?, Precedence.operatorAt?_eq_none hne, ite_self]
      rw [Precedence.scan_cons_of_none (hate _ _)]
      cases hsign with
      | none => exact hplain hdigits _ _
      | plus | minus =>
        rw [List.singleton_append, Precedence.scan_cons_of_none]
        · exact hplain hdigits _ _
        · rw [Precedence.splitAt?, operatorAt?_of_endsInExponentMark hmark p (by decide), ite_self]

/-- A literal splits at no operator, unless it starts with a plus. -/
theorem split?_eq_none {cs : List Char} {v : Float} (h : read cs = some v)
    (hplus : cs.head? ≠ some '+') (p : Precedence) : p.split? cs = none := by
  obtain @⟨_, body, hsign, hbody⟩ := isLiteral_of_read h
  cases hsign with
  | none => exact hbody.split?_eq_none p
  | plus => exact absurd rfl hplus
  | minus =>
    have hminus : p.splitAt? 0 [] '-' = none := by cases p <;> rfl
    rw [List.singleton_append, Precedence.split?, Precedence.scan_cons_of_none hminus]
    show p.scan 0 ([] ++ Operator.subtract.char :: []) body = none
    rw [Precedence.scan_past, ← Precedence.split?, hbody.split?_eq_none]
    rfl

end Ordinate.Literal

import Ordinate.Number.Nearest
import Ordinate.Number.Shortest

/-!
# Literals

A literal is an optional sign and then `NaN`, `Infinity` or a decimal: digits with an optional
fraction and an optional exponent, of which the first two have at least one digit together.

* `Literal.accepts` : whether a text is a literal, by a scan which must reach its end;
* `Literal.readFloat` : the double written by a text of the wider grammar of doubles;
* `Literal.value?` : the double denoted by a literal;
* `Literal.spell` : the normal spelling of a double.
-/

namespace Ordinate.Literal

/-- An optional sign, true if it is a minus, and the text after it. -/
def splitSign : List Char → Bool × List Char
  | '+' :: cs => (false, cs)
  | '-' :: cs => (true, cs)
  | cs => (false, cs)

def nanName : List Char := ['N', 'a', 'N']

def infinityName : List Char := ['I', 'n', 'f', 'i', 'n', 'i', 't', 'y']

/-! ## Recognition -/

/-- How many digits a text starts with, and the text after them. -/
def passDigits (cs : List Char) : Nat × List Char :=
  ((cs.takeWhile Char.isDigit).length, cs.dropWhile Char.isDigit)

/-- How many digits stand after a decimal point, which may be missing, and the text after them. -/
def passFraction : List Char → Nat × List Char
  | '.' :: cs => passDigits cs
  | cs => (0, cs)

/-- The text after an exponent, which may be missing, but not its digits. -/
def passExponent? : List Char → Option (List Char)
  | [] => some []
  | c :: cs =>
    if c = 'e' ∨ c = 'E' then
      let (digits, rest) := passDigits (splitSign cs).2
      if digits = 0 then none else some rest
    else some (c :: cs)

/-- The text after a decimal without a sign. -/
def passDecimal? (cs : List Char) : Option (List Char) :=
  let (whole, rest) := passDigits cs
  let (fraction, rest) := passFraction rest
  if whole + fraction = 0 then none else passExponent? rest

def acceptsChars (cs : List Char) : Bool :=
  let unsigned := (splitSign cs).2
  unsigned = nanName ∨ unsigned = infinityName ∨ passDecimal? unsigned = some []

def accepts (text : String) : Bool :=
  acceptsChars text.toList

/-! ## Reading -/

def digitsValue (digits : List Char) : Nat :=
  Nat.ofDigitChars 10 digits 0

def splitFraction : List Char → List Char × List Char
  | '.' :: cs => (cs.takeWhile Char.isDigit, cs.dropWhile Char.isDigit)
  | cs => ([], cs)

/-- The exponent which is the whole of a text; an empty text stands for the exponent zero. -/
def readExponent : List Char → Option Int
  | [] => some 0
  | c :: cs =>
    let (negative, digits) := splitSign cs
    if (c = 'e' ∨ c = 'E') ∧ digits ≠ [] ∧ digits.all Char.isDigit then
      some (if negative then -digitsValue digits else digitsValue digits)
    else none

/-- The decimal which is the whole of a text, without a sign. -/
def readDecimal (cs : List Char) : Option Decimal :=
  let whole := cs.takeWhile Char.isDigit
  let (fraction, rest) := splitFraction (cs.dropWhile Char.isDigit)
  if whole = [] ∧ fraction = [] then none
  else (readExponent rest).map fun e => ⟨digitsValue (whole ++ fraction), e - fraction.length⟩

/-- What is written behind the sign of a double. -/
inductive Unsigned where
  | nan
  | infinity
  | decimal (d : Decimal)

/-- The double with the given sign and magnitude; there is one NaN, without a sign. -/
def Unsigned.toFloat (negative : Bool) : Unsigned → Float
  | nan => floatOfWord false (infinityWord + Nat.pow 2 51)
  | infinity => floatOfWord negative infinityWord
  | decimal d => d.toFloat negative

/-- The magnitude which is the whole of a text: a decimal, `inf`, `infinity` or `nan`, the words in
any mixture of cases. -/
def readUnsigned (cs : List Char) : Option Unsigned :=
  let word := cs.map Char.toLower
  if word = ['i', 'n', 'f'] ∨ word = ['i', 'n', 'f', 'i', 'n', 'i', 't', 'y'] then some .infinity
  else if word = ['n', 'a', 'n'] then some .nan
  else (readDecimal cs).map .decimal

/-- The double written by a text, with an optional sign. -/
def readFloat (cs : List Char) : Option Float :=
  let (negative, unsigned) := splitSign cs
  (readUnsigned unsigned).map (·.toFloat negative)

/-- The double denoted by a text, if it is a literal. -/
def read (cs : List Char) : Option Float :=
  if acceptsChars cs then readFloat cs else none

def value? (text : String) : Option Float :=
  read text.toList

/-! ## Writing -/

/-- A decimal is written without exponent if it is zero or at least `10 ^ -4` and below `10 ^ 16`,
so with its point at most three places left of its first digit and at most sixteen right of it. -/
def spellDecimal (d : Decimal) : List Char :=
  if d.digits = 0 ∨ (-3 ≤ d.pointPlace ∧ d.pointPlace ≤ 16) then d.positional else d.scientific

def spellSign (negative : Bool) : List Char :=
  if negative then ['-'] else []

/-- The normal spelling of a double: the shortest decimal which reads back as it, with a fraction
or an exponent, or a name. -/
def spellChars (v : Float) : List Char :=
  match Binary64.ofFloat v with
  | .nan => nanName
  | .infinity negative => spellSign negative ++ infinityName
  | .finite negative m => spellSign negative ++ spellDecimal m.shortest

def spell (v : Float) : String :=
  String.ofList (spellChars v)

end Ordinate.Literal

import Ordinate.Number.Fraction

/-!
# Decimals

* `Decimal` : a non-negative decimal, a whole number of units of a power of ten;
* `Decimal.value` : what it denotes;
* `Decimal.normalize` : the same decimal without trailing zeros in its digits;
* `Decimal.positional`, `Decimal.scientific` : its two spellings.
-/

namespace Ordinate

/-- The non-negative decimal `digits * 10 ^ exponent`. -/
structure Decimal where
  digits : Nat
  exponent : Int
deriving DecidableEq

namespace Decimal

def value (d : Decimal) : Fraction :=
  (Fraction.ofNat d.digits).timesPow Fraction.ten_pos d.exponent

/-- The decimal without trailing zeros in its digits. -/
def normalize (d : Decimal) : Decimal :=
  if h : d.digits ≠ 0 ∧ d.digits % 10 = 0 then
    normalize ⟨d.digits / 10, d.exponent + 1⟩
  else d
termination_by d.digits
decreasing_by omega

/-! ## Spelling -/

def digitChars (d : Decimal) : List Char :=
  Nat.toDigits 10 d.digits

/-- How many digits stand before the decimal point: a negative number counts the zeros which follow
the point. -/
def pointPlace (d : Decimal) : Int :=
  d.digitChars.length + d.exponent

/-- The spelling without exponent. The point has at least one digit on either side. -/
def positional (d : Decimal) : List Char :=
  let digits := d.digitChars
  let place := d.pointPlace
  if place ≤ 0 then
    '0' :: '.' :: (List.replicate (-place).toNat '0' ++ digits)
  else if digits.length ≤ place.toNat then
    digits ++ List.replicate d.exponent.toNat '0' ++ ['.', '0']
  else
    digits.take place.toNat ++ '.' :: digits.drop place.toNat

def signedChars (n : Int) : List Char :=
  if n < 0 then '-' :: Nat.toDigits 10 n.natAbs else Nat.toDigits 10 n.natAbs

/-- The spelling with one digit before the point, no point after a lone digit, and the exponent
after an `e`. -/
def scientific (d : Decimal) : List Char :=
  let exponent := 'e' :: signedChars (d.pointPlace - 1)
  match d.digitChars with
  | first :: second :: rest => first :: '.' :: second :: (rest ++ exponent)
  | digits => digits ++ exponent

end Decimal

end Ordinate

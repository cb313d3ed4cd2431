import Ordinate.Number.Binary64
import Ordinate.Number.Decimal

/-!
# The nearest double

* `nearestWord` : the word of the double nearest to a fraction, from halfway the one with the even
  significand; what is too large becomes infinity, what is too small becomes zero;
* `Decimal.toFloat` : the double nearest to a decimal with a sign.
-/

namespace Ordinate

/-- The word of the double nearest to `f`. Its unit is `2 ^ exponent`, with 53 binary digits unless
that is below the least unit; a significand rounded up to `2 ^ 53` carries into the exponent. -/
def nearestWord (f : Fraction) : Nat :=
  if f.num = 0 then 0
  else
    let exponent := max (f.floorLog2 - 52) (-1074)
    let significand := (f.timesPow Nat.two_pos (-exponent)).nearestEven
    min ((exponent + 1074).toNat * Nat.pow 2 52 + significand) infinityWord

namespace Decimal

/-- A bound on the exponent above which a decimal is larger than every double: a number whose binary
logarithm is at least `4 * k` is at least `10 ^ k`. -/
def isHuge (d : Decimal) : Bool :=
  310 < (d.digits.log2 / 4 : Nat) + d.exponent

/-- A bound on the exponent below which a decimal rounds to zero: a number whose binary logarithm is
less than `3 * k` is less than `10 ^ k`. -/
def isTiny (d : Decimal) : Bool :=
  (d.digits.log2 / 3 + 1 : Nat) + d.exponent < -330

/-- The word of the double nearest to `d`. Decimals far outside the range of doubles are settled
before any power of ten is computed. -/
def nearestWord (d : Decimal) : Nat :=
  if d.digits = 0 then 0
  else if d.isHuge then infinityWord
  else if d.isTiny then 0
  else Ordinate.nearestWord d.value

/-- The double nearest to `d`, negated if `negative`. -/
def toFloat (negative : Bool) (d : Decimal) : Float :=
  floatOfWord negative d.nearestWord

end Decimal

end Ordinate

import Ordinate.Number.Binary64
import Ordinate.Number.Decimal

/-!
# The shortest decimal of a double

* `Magnitude.shortest` : the decimal with the fewest digits which rounds to a magnitude, and of
  those the nearest to it;
* `Magnitude.onGrid` : the candidate with a given number of digits;
* `Magnitude.exact` : all digits of the magnitude.
-/

namespace Ordinate

namespace Magnitude

/-- All digits of the magnitude: a unit `2 ^ -k` is `5 ^ k` units `10 ^ -k`. -/
def exact (m : Magnitude) : Decimal :=
  if 0 ≤ m.exponent then ⟨m.significand * Nat.pow 2 m.exponent.toNat, 0⟩
  else ⟨m.significand * Nat.pow 5 (-m.exponent).toNat, m.exponent⟩

/-- The nearest decimal with the given exponent which rounds to `m`, if there is one. Only the two
neighbours of `m` need a look; from halfway between them the upper one is taken. -/
def onGrid (m : Magnitude) (exponent : Int) : Option Decimal :=
  let scaled := m.value.timesPow Fraction.ten_pos (-exponent)
  let lower : Decimal := ⟨scaled.floor, exponent⟩
  let upper : Decimal := ⟨scaled.floor + 1, exponent⟩
  match m.rounds lower.value, m.rounds upper.value with
  | true, true => some (if 2 * (scaled.num % scaled.den) < scaled.den then lower else upper)
  | true, false => some lower
  | false, true => some upper
  | false, false => none

/-- The decimal with the fewest digits which rounds to `m`, the nearest to `m` of those. Seventeen
digits are enough for every double. -/
def shortest (m : Magnitude) : Decimal :=
  if m.significand = 0 then ⟨0, 0⟩
  else
    let scale := m.value.decimalScale
    let found := (List.range' 1 17).findSome? fun digits : Nat => m.onGrid (scale - digits)
    (found.getD m.exact).normalize

end Magnitude

end Ordinate

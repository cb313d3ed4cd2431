import Ordinate.Number.Fraction

/-!
# Binary64 words

* `Magnitude` : a finite magnitude as a whole number of units of a power of two;
* `Magnitude.rounds` : whether a fraction lies among the reals which round to a magnitude;
* `Binary64` : what a double stands for; `Binary64.ofFloat` reads it off the word;
* `floatOfWord` : the double with a given sign and magnitude word.
-/

namespace Ordinate

/-- The finite magnitude `significand * 2 ^ exponent` of a double. -/
structure Magnitude where
  significand : Nat
  exponent : Int
  /-- The gap to the magnitude below is half the gap to the magnitude above. -/
  narrowBelow : Bool
deriving DecidableEq

namespace Magnitude

/-- The magnitude in a word's exponent field and fraction field, neither of an infinity nor of a
NaN. -/
def ofFields (exponent fraction : Nat) : Magnitude :=
  if exponent = 0 then ⟨fraction, -1074, false⟩
  else ⟨Nat.pow 2 52 + fraction, exponent - 1075, fraction = 0 && 1 < exponent⟩

def value (m : Magnitude) : Fraction :=
  (Fraction.ofNat m.significand).timesPow Nat.two_pos m.exponent

/-- Halfway from `m` to the magnitude below. -/
def lowerEnd (m : Magnitude) : Fraction :=
  (Fraction.ofNat (4 * m.significand - if m.narrowBelow then 1 else 2)).timesPow Nat.two_pos
    (m.exponent - 2)

/-- Halfway from `m` to the magnitude above. -/
def upperEnd (m : Magnitude) : Fraction :=
  (Fraction.ofNat (4 * m.significand + 2)).timesPow Nat.two_pos (m.exponent - 2)

/-- Whether `f` rounds to `m`: it lies between the two halfway points, which themselves round to the
magnitude with the even significand. -/
def rounds (m : Magnitude) (f : Fraction) : Bool :=
  if m.significand % 2 = 0 then m.lowerEnd.le f && f.le m.upperEnd
  else m.lowerEnd.lt f && f.lt m.upperEnd

end Magnitude

/-- What a double stands for. -/
inductive Binary64 where
  | nan
  | infinity (negative : Bool)
  | finite (negative : Bool) (magnitude : Magnitude)

namespace Binary64

/-- What the double with the word `w` stands for: above the 52 bits of the fraction lie the eleven
of the exponent and the sign. -/
def ofWord (w : Nat) : Binary64 :=
  let fraction := w % Nat.pow 2 52
  let exponent := w / Nat.pow 2 52 % Nat.pow 2 11
  let negative := w / Nat.pow 2 63 % 2 = 1
  if exponent = 0x7FF then
    if fraction = 0 then infinity negative else nan
  else finite negative (.ofFields exponent fraction)

def ofFloat (v : Float) : Binary64 :=
  ofWord v.toBits.toNat

end Binary64

def infinityWord : Nat :=
  0x7FF * Nat.pow 2 52

def floatOfWord (negative : Bool) (w : Nat) : Float :=
  Float.ofBits (UInt64.ofNat (if negative then Nat.pow 2 63 + w else w))

end Ordinate

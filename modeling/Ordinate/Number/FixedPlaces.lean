import Ordinate.Number.Binary64

/-!
# Fixed places

* `Fraction.fixedPlaces` : a fraction with a given number of places after the point;
* `fixedPlaces` : a double with a given number of places; the exact value is rounded, from halfway
  to the even digit, and the sign stays even where all digits are zero.
-/

namespace Ordinate

/-- The fraction with `places` digits after the point, for a positive number of places. -/
def Fraction.fixedPlaces (f : Fraction) (places : Nat) : List Char :=
  let digits := Nat.toDigits 10 (f.timesPow Fraction.ten_pos places).nearestEven
  let padded := List.replicate (places + 1 - digits.length) '0' ++ digits
  let whole := padded.length - places
  padded.take whole ++ '.' :: padded.drop whole

def fixedPlaces (places : Nat) (v : Float) : List Char :=
  match Binary64.ofFloat v with
  | .nan => ['N', 'a', 'N']
  | .infinity negative => (if negative then ['-'] else []) ++ ['i', 'n', 'f']
  | .finite negative m => (if negative then ['-'] else []) ++ m.value.fixedPlaces places

def padLeft (width : Nat) (s : List Char) : List Char :=
  List.replicate (width - s.length) ' ' ++ s

end Ordinate

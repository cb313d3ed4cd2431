/-!
# Classes of characters

* `CharClass` : a class of characters, given by intervals of code points in ascending order;
* `CharClass.contains` : membership of a character in the class.
-/

namespace Ordinate.Text

/-- A class of characters: inclusive intervals of code points, in ascending order. -/
structure CharClass where
  intervals : List (Nat × Nat)

namespace CharClass

/-- Whether `n` lies in one of the intervals; the search ends at the first interval above `n`. -/
def covers : List (Nat × Nat) → Nat → Bool
  | [], _ => false
  | (first, last) :: rest, n => first ≤ n && (n ≤ last || covers rest n)

def contains (C : CharClass) (c : Char) : Bool :=
  covers C.intervals c.toNat

end CharClass

end Ordinate.Text

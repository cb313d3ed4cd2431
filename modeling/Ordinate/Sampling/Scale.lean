/-!
# Scales

* `Scale` : what stepping through an interval needs of its numbers;
* `Scale.float` : doubles.
-/

namespace Ordinate

universe u

structure Scale (α : Type u) where
  isFinite : α → Bool
  lt : α → α → Bool
  le : α → α → Bool
  add : α → α → α
  subtract : α → α → α
  multiply : α → α → α
  divide : α → α → α
  ofNat : Nat → α
  /-- The share of a step by which a point may lie past the end. -/
  tolerance : α
  /-- The greatest whole number which is at most a given one, if that is not negative. -/
  floor : α → Nat

def Scale.float : Scale Float where
  isFinite := Float.isFinite
  lt a b := a < b
  le a b := a ≤ b
  add := Float.add
  subtract := Float.sub
  multiply := Float.mul
  divide := Float.div
  ofNat := Float.ofNat
  tolerance := 1e-9
  floor v := v.toUInt64.toNat

end Ordinate

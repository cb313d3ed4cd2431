/-!
# Exact fractions

* `Fraction` : a non-negative fraction, not necessarily in lowest terms;
* `Fraction.timesPow` : a fraction times an integer power of a base;
* `Fraction.lt`, `Fraction.le` : the order, by cross multiplication;
* `Fraction.nearestEven` : the nearest whole number, from halfway the even one;
* `Fraction.floorLog2`, `Fraction.decimalScale` : the place of a positive fraction among the powers
  of two and of ten.
-/

namespace Ordinate

/-- A non-negative fraction, not necessarily in lowest terms. -/
structure Fraction where
  num : Nat
  den : Nat
  den_pos : 0 < den

namespace Fraction

def ofNat (n : Nat) : Fraction :=
  ⟨n, 1, Nat.one_pos⟩

theorem ten_pos : 0 < 10 :=
  Nat.zero_lt_succ 9

/-- The fraction times `b ^ e`. -/
def timesPow (f : Fraction) {b : Nat} (hb : 0 < b) (e : Int) : Fraction where
  num := f.num * b.pow e.toNat
  den := f.den * b.pow (-e).toNat
  den_pos := Nat.mul_pos f.den_pos (Nat.pow_pos hb)

/-! ## Order -/

def lt (f g : Fraction) : Bool :=
  f.num * g.den < g.num * f.den

def le (f g : Fraction) : Bool :=
  f.num * g.den ≤ g.num * f.den

/-! ## Rounding to whole numbers -/

def floor (f : Fraction) : Nat :=
  f.num / f.den

/-- The whole number nearest to `f`; of two equally near ones the even one. -/
def nearestEven (f : Fraction) : Nat :=
  let rest := 2 * (f.num % f.den)
  if rest < f.den then f.floor
  else if f.den < rest then f.floor + 1
  else f.floor + f.floor % 2

/-! ## Scale -/

/-- The greatest `k` with `2 ^ k ≤ f`, for a positive `f`. The difference of the binary lengths of
its parts is right or one too large. -/
def floorLog2 (f : Fraction) : Int :=
  let k : Int := f.num.log2 - f.den.log2
  if f.lt ((ofNat 1).timesPow Nat.two_pos k) then k - 1 else k

/-- The least `k` with `f < 10 ^ k`, for a positive `f`. -/
def decimalScale (f : Fraction) : Int :=
  if f.den ≤ f.num then
    (Nat.toDigits 10 f.floor).length
  else
    let length := (Nat.toDigits 10 (f.den / f.num)).length
    if f.num * Nat.pow 10 (length - 1) = f.den then 2 - length else 1 - length

end Fraction

end Ordinate

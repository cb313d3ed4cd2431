import Ordinate.Journal
import Ordinate.Literal
import Ordinate.Sampling.Scale

/-!
# Sweeps

* `Sweep` : a first sample point, an end and a step;
* `Sweep.isValid` : whether it has points at all;
* `Sweep.counted` : the count of its points, at most `pointLimit`, with its entry in the journal;
* `Sweep.count`, `Sweep.warnings` : the number which it returns, and what it writes;
* `Sweep.point`, `Sweep.point?`, `Sweep.points` : the point with an index, the same if sampled,
  and all sampled points.
-/

namespace Ordinate

universe u

/-- The points `start`, `start + step`, … up to `stop`. -/
structure Sweep (α : Type u) where
  start : α
  stop : α
  step : α

def pointLimit : Nat :=
  1000000

namespace Sweep

variable {α : Type u}

/-- Whether a sweep has points: its bounds and its step are finite, the step leads forward, and the
end is not before the start. -/
def isValid (S : Scale α) (s : Sweep α) : Bool :=
  S.isFinite s.start && S.isFinite s.stop && S.isFinite s.step && S.lt (S.ofNat 0) s.step &&
    S.le s.start s.stop

/-- How many steps lead to the end, and the tolerance, so that an end which is missed by the
rounding of the division still counts. -/
def steps (S : Scale α) (s : Sweep α) : α :=
  S.add (S.divide (S.subtract s.stop s.start) s.step) S.tolerance

/-- The text of a sweep, where `spell` writes its numbers. -/
def describeBy (spell : α → String) (s : Sweep α) : String :=
  "SampleRange \x7b min_x: " ++ spell s.start ++ ", max_x: " ++ spell s.stop ++
    ", delta_x: " ++ spell s.step ++ " \x7d"

def warning (spell : α → String) (s : Sweep α) : Journal.Entry :=
  ⟨.warn, "sample range " ++ s.describeBy spell ++ " has too many points, truncating to " ++
    pointLimit.repr⟩

/-! ## Counting -/

/-- The number of sampled points; where points are left out, the journal gets a warning. -/
def counted (S : Scale α) (spell : α → String) (s : Sweep α) : StateM (Array Journal.Entry) Nat :=
  if s.isValid S then
    if S.le (S.ofNat pointLimit) (s.steps S) then do
      modify (·.push (s.warning spell))
      return pointLimit
    else return S.floor (s.steps S) + 1
  else return 0

/-- The number of sampled points, on which the spelling in the journal has no bearing. -/
def count (S : Scale α) (s : Sweep α) : Nat :=
  ((s.counted S fun _ => "").run #[]).1

def warnings (S : Scale α) (spell : α → String) (s : Sweep α) : List Journal.Entry :=
  ((s.counted S spell).run #[]).2.toList

section

variable {S : Scale α} {s : Sweep α}

theorem count_of_isValid (h : s.isValid S) :
    s.count S =
      if S.le (S.ofNat pointLimit) (s.steps S) then pointLimit else S.floor (s.steps S) + 1 := by
  rw [count, counted, if_pos h]
  split <;> rfl

theorem count_of_not_isValid (h : ¬s.isValid S) : s.count S = 0 := by
  rw [count, counted, if_neg h]
  rfl

theorem warnings_of_isValid (h : s.isValid S) (spell : α → String) :
    s.warnings S spell =
      if S.le (S.ofNat pointLimit) (s.steps S) then [s.warning spell] else [] := by
  rw [warnings, counted, if_pos h]
  split <;> rfl

theorem warnings_of_not_isValid (h : ¬s.isValid S) (spell : α → String) :
    s.warnings S spell = [] := by
  rw [warnings, counted, if_neg h]
  rfl

/-- A count writes its entries behind those which are there. -/
theorem run_counted (S : Scale α) (spell : α → String) (s : Sweep α)
    (journal : Array Journal.Entry) :
    (s.counted S spell).run journal = (s.count S, journal ++ s.warnings S spell) := by
  by_cases h : s.isValid S
  · rw [count_of_isValid h, warnings_of_isValid h, counted, if_pos h]
    split
    · exact Prod.ext rfl Array.append_singleton.symm
    · exact Prod.ext rfl Array.appendList_nil.symm
  · rw [count_of_not_isValid h, warnings_of_not_isValid h, counted, if_neg h]
    exact Prod.ext rfl Array.appendList_nil.symm

end

/-! ## Points -/

/-- The point with the index `i`. It is computed from its index, not from the point before it, so
that rounding errors do not add up. -/
def point (S : Scale α) (s : Sweep α) (i : Nat) : α :=
  S.add s.start (S.multiply (S.ofNat i) s.step)

def point? (S : Scale α) (s : Sweep α) (i : Nat) : Option α :=
  if i < s.count S then some (s.point S i) else none

def last? (S : Scale α) (s : Sweep α) : Option α :=
  s.point? S (s.count S - 1)

def firstPoints (S : Scale α) (s : Sweep α) (n : Nat) : List α :=
  (List.range n).map (s.point S)

def points (S : Scale α) (s : Sweep α) : List α :=
  s.firstPoints S (s.count S)

theorem length_points (S : Scale α) (s : Sweep α) : (s.points S).length = s.count S := by
  rw [points, firstPoints, List.length_map, List.length_range]

theorem getElem?_points (S : Scale α) (s : Sweep α) (i : Nat) :
    (s.points S)[i]? = s.point? S i := by
  rw [points, firstPoints, List.getElem?_map, point?]
  split
  · rw [List.getElem?_range ‹_›, Option.map_some]
  · rw [List.getElem?_eq_none (by rw [List.length_range]; omega), Option.map_none]

/-! ## Sweeps of doubles -/

def standard : Sweep Float :=
  ⟨-10, 10, 0.01⟩

def entries (s : Sweep Float) : List Journal.Entry :=
  s.warnings .float Literal.spell

end Sweep

end Ordinate

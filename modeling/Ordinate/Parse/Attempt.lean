import Ordinate.Parse.Event
import Ordinate.Tree

/-!
# Attempts

* `Parse.State` : what a parser keeps from one step to the next;
* `Parse.Attempt` : a step which may fail;
* `Parse.deeper` : a step inside a group or a logarithm.
-/

namespace Ordinate.Parse

/-- How many groups and logarithms a parser is inside of, and its notes so far. -/
structure State where
  depth : Nat := 0
  events : Array Event := #[]

def State.note (s : State) (event : Event) : State :=
  { s with events := s.events.push event }

/-- A step of a parser, which may fail. Its notes stay if it does. -/
abbrev Attempt : Type → Type :=
  ExceptT Reason (StateM State)

variable {β : Type}

/-- Take a note and give a result. -/
def accept (event : Event) (result : β) : Attempt β := fun s =>
  (.ok result, s.note event)

def reject (event : Event) : Attempt β := fun s =>
  (.error .noRule, s.note event)

/-- Take a step one level deeper. The level is left again whether or not the step fails. -/
def deeper (limits : Limits) (step : Attempt β) : Attempt β := fun s =>
  if limits.depth ≤ s.depth then (.error (.tooDeep limits.depth), s)
  else
    let (result, s') := step { s with depth := s.depth + 1 }
    (result, { s' with depth := s'.depth - 1 })

end Ordinate.Parse

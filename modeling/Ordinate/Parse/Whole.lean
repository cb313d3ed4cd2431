import Ordinate.Parse.Chain
import Ordinate.Text.Blank

/-!
# Whole texts

* `Parse.Limits.admit` : whether a text is short enough and its parentheses are balanced;
* `Parse.Rules.whole` : the result of a text to which the rules are applied if it is admitted;
* `Parse.Rules.parse` : that of a text with blank characters, and a note on the outcome;
* `Parse.parse` : the tree of a text, or the reason why it has none.
-/

namespace Ordinate.Parse

/-- Whether a text is short enough and its parentheses are balanced, or which of the two it is
not. -/
def Limits.admit (limits : Limits) (text : List Char) : Except Reason Unit :=
  if limits.length < text.length then .error (.tooLong limits.length)
  else if balanced 0 text then .ok ()
  else .error .unbalanced

def stripped (text : String) : List Char :=
  Text.stripBlank text.toList

namespace Rules

variable {n : Type → Type} [Monad n] {τ : Type}

def whole (R : Rules (ExceptT Reason (StateT State n)) τ) (limits : Limits) (text : List Char) :
    ExceptT Reason (StateT State n) τ :=
  match limits.admit text with
  | .ok () => R.chain [] .sum text
  | .error reason => throw reason

/-- The result of a text, blank characters aside. A parser starts outside all groups, whatever it
was given before, and ends with a note on the outcome. -/
def parse (R : Rules (ExceptT Reason (StateT State n)) τ) (limits : Limits) (text : String) :
    StateT State n (Except Failure τ) := fun s => do
  let name := String.ofList (stripped text)
  match ← R.whole limits (stripped text) { s with depth := 0 } with
  | (.ok result, s') => return (.ok result, s'.note (.parsed name (R.size result)))
  | (.error reason, s') => return (.error ⟨name, reason⟩, s'.note (.failed name reason))

end Rules

def parse (limits : Limits) (text : String) : StateM State (Except Failure Tree) :=
  (rules limits).parse limits text

section Admit

variable {limits : Limits} {text : String}

/-- A text which is not admitted is refused before the rules take any notes. -/
theorem parse_of_admit_eq_error {reason : Reason} (h : limits.admit (stripped text) = .error reason)
    (s : State) :
    parse limits text s = (.error ⟨String.ofList (stripped text), reason⟩,
      State.note { s with depth := 0 } (.failed (String.ofList (stripped text)) reason)) := by
  unfold parse Rules.parse Rules.whole
  dsimp only
  rw [h]
  rfl

theorem parse_of_admit_eq_ok (h : limits.admit (stripped text) = .ok ()) (s : State) :
    parse limits text s =
      match chain limits [] .sum (stripped text) { s with depth := 0 } with
      | (.ok t, s') => (.ok t, s'.note (.parsed (String.ofList (stripped text)) t.size))
      | (.error reason, s') => (.error ⟨String.ofList (stripped text), reason⟩,
          s'.note (.failed (String.ofList (stripped text)) reason)) := by
  unfold parse Rules.parse Rules.whole chain
  dsimp only
  rw [h]
  dsimp only
  rcases (rules limits).chain [] .sum (stripped text) { s with depth := 0 } with
    ⟨reason | t, s'⟩ <;> rfl

end Admit

end Ordinate.Parse

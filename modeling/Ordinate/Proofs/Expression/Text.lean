import Ordinate.Expression.Text
import Ordinate.Proofs.Parse.Reads

/-!
# Expressions which texts write

* `Expression.ofText_eq_ok_iff` : a text writes an expression exactly if, without its blank
  characters, it is short enough, its parentheses are balanced, and it reads as the expression's
  tree;
* `Expression.linked_of_ofText`, `Expression.saturated_of_ofText` : an expression which is written
  by a text has consistent links, and each of its nodes has as many children as its label asks for.
-/

namespace Ordinate

variable {limits : Parse.Limits}

namespace Parse

theorem admit_eq_ok_iff {text : List Char} :
    limits.admit text = .ok () ↔ text.length ≤ limits.length ∧ balanced 0 text := by
  unfold Limits.admit
  split_ifs with hlength hbalanced
  · exact ⟨nofun, fun h => absurd h.1 (Nat.not_le.2 hlength)⟩
  · exact ⟨fun _ => ⟨Nat.le_of_not_lt hlength, hbalanced⟩, fun _ => rfl⟩
  · exact ⟨nofun, fun h => absurd h.2 hbalanced⟩

/-- A parser which has not been used before gives a tree exactly if the text is admitted and reads
as the tree. -/
theorem parse_eq_ok_iff {text : String} {t : Tree} :
    (parse limits text {}).1 = .ok t ↔
      (Text.stripBlank text.toList).length ≤ limits.length ∧
        balanced 0 (Text.stripBlank text.toList) ∧
          Reads limits 0 (some .sum) (Text.stripBlank text.toList) t := by
  rw [reads_iff, ← and_assoc, ← admit_eq_ok_iff]
  cases hadmit : limits.admit (stripped text) with
  | error reason =>
    rw [parse_of_admit_eq_error hadmit, ← stripped, hadmit]
    exact ⟨nofun, nofun⟩
  | ok =>
    rw [parse_of_admit_eq_ok hadmit, ← stripped, hadmit]
    unfold resultAt
    dsimp only [attempt]
    rcases chain limits [] .sum (stripped text) {} with ⟨reason | u, s⟩
    · exact ⟨nofun, nofun⟩
    · exact ⟨fun h => ⟨rfl, congrArg _ (Except.ok.inj h)⟩,
        fun h => congrArg _ (Except.ok.inj h.2)⟩

end Parse

namespace Expression

theorem ofText_eq_ok_iff {text : String} {e : Expression} :
    ofText text limits = .ok e ↔
      (Text.stripBlank text.toList).length ≤ limits.length ∧
        Parse.balanced 0 (Text.stripBlank text.toList) ∧
          ∃ t, Parse.Reads limits 0 (some .sum) (Text.stripBlank text.toList) t ∧ e = ofTree t := by
  unfold ofText
  constructor
  · intro h
    cases hparse : (Parse.parse limits text {}).1 with
    | error reason =>
      rw [hparse] at h
      cases h
    | ok t =>
      rw [hparse] at h
      obtain ⟨hlength, hbalanced, hreads⟩ := Parse.parse_eq_ok_iff.1 hparse
      exact ⟨hlength, hbalanced, t, hreads, (Except.ok.inj h).symm⟩
  · rintro ⟨hlength, hbalanced, t, hreads, rfl⟩
    rw [Parse.parse_eq_ok_iff.2 ⟨hlength, hbalanced, hreads⟩]
    rfl

theorem ofText_ofList_eq_ok_iff {text : List Char} (hblank : ∀ c ∈ text, Text.isBlank c = false)
    {e : Expression} :
    ofText (String.ofList text) limits = .ok e ↔
      text.length ≤ limits.length ∧ Parse.balanced 0 text ∧
        ∃ t, Parse.Reads limits 0 (some .sum) text t ∧ e = ofTree t := by
  rw [ofText_eq_ok_iff, String.toList_ofList, Text.stripBlank_eq_self hblank]

theorem linked_of_ofText {text : String} {e : Expression} (h : ofText text limits = .ok e) :
    e.Linked := by
  obtain ⟨-, -, t, -, rfl⟩ := ofText_eq_ok_iff.1 h
  exact linked_ofTree t

theorem saturated_of_ofText {text : String} {e : Expression} (h : ofText text limits = .ok e) :
    e.Saturated := by
  obtain ⟨-, -, t, hreads, rfl⟩ := ofText_eq_ok_iff.1 h
  exact saturated_ofTree hreads.saturated

end Expression

end Ordinate

import Ordinate.Proofs.Parse.Reads

/-!
# The grammar as a recursion

The parser walks a chain of operators in a loop, which keeps what it has passed and starts again from
the loosest precedence behind each operator. Read from the grammar, a chain is its first operator
between two texts which are parsed each on its own.

* `Parse.descend` : the parser which the grammar describes, without a loop;
* `Parse.descend_of_splitFrom?_eq_some` and its siblings : one equation for each rule;
* `Parse.attempt_eq_descend` : each rule of the parser takes the steps of that recursion;
* `Parse.chain_eq_descend` : so does a chain from anywhere in its loop.
-/

namespace Ordinate.Parse

variable {limits : Limits}

/-- The parser which the grammar describes, for a text which may split at the operators of a
precedence and of all tighter ones, or at none. A text which splits has a left side with no operator
as loose, and a right side which is parsed like a whole text; only then is the tree made. -/
def descend (limits : Limits) : Option Precedence → List Char → Attempt Tree
  | some p, text =>
    match _ : p.splitFrom? text with
    | some (found, s) =>
      if s.left = [] ∨ s.right = [] then reject (.missingOperand s.op (String.ofList text))
      else do
        let left ← descend limits found.tighter s.left
        let right ← descend limits (some .sum) s.right
        return .binary s.op left right
    | none => descend limits none text
  | none, text =>
    match _ : logArgument? text with
    | some argument => Tree.unary .log <$> deeper limits (descend limits (some .sum) argument)
    | none =>
      if text.head? = some '(' then
        match _ : groupInside? text with
        | some inside => Tree.unary .group <$> deeper limits (descend limits (some .sum) inside)
        | none => reject (.notOneGroup (String.ofList text))
      else leaf text
termination_by p text => 2 * text.length + p.toList.length
decreasing_by
  · have := length_left_lt ‹_›
    have : found.tighter.toList.length ≤ 1 := by cases found.tighter <;> simp
    simp only [Option.toList_some, List.length_singleton]
    omega
  · have := length_right_lt ‹_›
    simp only [Option.toList_some, List.length_singleton]
    omega
  · simp
  · have := length_lt_of_logArgument? ‹_›
    simp only [Option.toList_some, List.length_singleton]
    omega
  · have := length_lt_of_groupInside? ‹_›
    simp only [Option.toList_some, List.length_singleton]
    omega

/-! ## The cases of the recursion -/

section Cases

variable {p found : Precedence} {s : Split} {text inside : List Char}

theorem descend_of_splitFrom?_eq_none (h : p.splitFrom? text = none) :
    descend limits (some p) text = descend limits none text := by
  conv_lhs => rw [descend]
  split
  · next h' => cases h.symm.trans h'
  · rfl

theorem descend_of_missing_operand (h : p.splitFrom? text = some (found, s))
    (hs : s.left = [] ∨ s.right = []) :
    descend limits (some p) text = reject (.missingOperand s.op (String.ofList text)) := by
  conv_lhs => rw [descend]
  split
  · next h' =>
    cases h.symm.trans h'
    exact if_pos hs
  · next h' => cases h.symm.trans h'

theorem descend_of_splitFrom?_eq_some (h : p.splitFrom? text = some (found, s))
    (hs : ¬(s.left = [] ∨ s.right = [])) :
    descend limits (some p) text = do
      let left ← descend limits found.tighter s.left
      let right ← descend limits (some .sum) s.right
      return .binary s.op left right := by
  conv_lhs => rw [descend]
  split
  · next h' =>
    cases h.symm.trans h'
    exact if_neg hs
  · next h' => cases h.symm.trans h'

theorem descend_of_logArgument? (h : logArgument? text = some inside) :
    descend limits none text =
      Tree.unary .log <$> deeper limits (descend limits (some .sum) inside) := by
  conv_lhs => rw [descend]
  split
  · next h' =>
    cases h.symm.trans h'
    rfl
  · next h' => cases h.symm.trans h'

theorem descend_of_groupInside? (hl : logArgument? text = none)
    (h : groupInside? text = some inside) :
    descend limits none text =
      Tree.unary .group <$> deeper limits (descend limits (some .sum) inside) := by
  have hp : text.head? = some '(' := by
    rw [text_of_groupInside? h, List.head?_cons]
  conv_lhs => rw [descend]
  split
  · next h' => cases hl.symm.trans h'
  · rw [if_pos hp]
    split
    · next h' =>
      cases h.symm.trans h'
      rfl
    · next h' => cases h.symm.trans h'

theorem descend_of_groupInside?_eq_none (hl : logArgument? text = none)
    (h : groupInside? text = none) :
    descend limits none text =
      if text.head? = some '(' then reject (.notOneGroup (String.ofList text))
      else leaf text := by
  conv_lhs => rw [descend]
  split
  · next h' => cases hl.symm.trans h'
  · split
    · split
      · next h' => cases h.symm.trans h'
      · rfl
    · rfl

end Cases

/-! ## The loop and the recursion -/

/-- Each rule of the parser takes the steps of the recursion. -/
theorem attempt_eq_descend (p : Option Precedence) (text : List Char) :
    attempt limits p text = descend limits p text := by
  induction 0, p, text using attempt_induction with
  | split depth p found text s h ihl ihr =>
    have ihr : chain limits [] .sum s.right = descend limits (some .sum) s.right := ihr
    show chain limits [] p text = descend limits (some p) text
    by_cases hs : s.left = [] ∨ s.right = []
    · rw [chain_of_missing_operand h hs, descend_of_missing_operand h hs]
    · rw [chain_of_splitFrom?_eq_some h hs, descend_of_splitFrom?_eq_some h hs,
        leftSide_eq_attempt, ihl]
      refine bind_congr fun left => ?_
      rw [chain_eq_join, ihr, map_eq_pure_bind]
      rfl
  | whole depth p text h ih =>
    have ih : operand limits text = descend limits none text := ih
    show chain limits [] p text = descend limits (some p) text
    rw [chain_of_splitFrom?_eq_none h, descend_of_splitFrom?_eq_none h, ← ih]
    exact id_map _
  | log depth text inside h ih =>
    have ih : chain limits [] .sum inside = descend limits (some .sum) inside := ih
    show operand limits text = descend limits none text
    rw [operand_of_logArgument? h, descend_of_logArgument? h, ih]
  | group depth text inside hl h ih =>
    have ih : chain limits [] .sum inside = descend limits (some .sum) inside := ih
    show operand limits text = descend limits none text
    rw [operand_of_groupInside? hl h, descend_of_groupInside? hl h, ih]
  | leaf depth text hl h =>
    show operand limits text = descend limits none text
    rw [descend_of_groupInside?_eq_none hl h]
    split
    · next hp => exact operand_of_head?_eq hl hp h
    · next hp => exact operand_of_head?_ne hl hp

/-- From any precedence on, with any limits, and whatever the parser has done before, a chain of
operators is walked to the tree, or to the reason, which the recursion gives, with the same notes in
the same order and on the same level; and behind the links which the loop has passed already, it
is walked to what those links make of that tree. -/
theorem chain_eq_descend (limits : Limits) (p : Precedence) (text : List Char) :
    chain limits [] p text = descend limits (some p) text ∧
      ∀ links : Links, chain limits links p text =
        links.join <$> descend limits (some p) text := by
  have h : chain limits [] p text = descend limits (some p) text :=
    attempt_eq_descend (some p) text
  refine ⟨h, fun links => ?_⟩
  rw [chain_eq_join, h]

end Ordinate.Parse

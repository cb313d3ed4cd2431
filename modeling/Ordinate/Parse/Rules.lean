import Ordinate.Label
import Ordinate.Parse.Event
import Ordinate.Parse.Group
import Ordinate.Parse.Split

/-!
# The rules of the grammar

The left side of a split has no operator as loose as the one it splits at, so it is parsed from the
next tighter precedence on; the right side is parsed from the loosest one again. A chain is walked
in a loop and becomes a tree which leans to the right.

* `Parse.Sides`, `Parse.Shorter` : parts of a text which are shorter than it;
* `Parse.Maker` : how results of any kind are made;
* `Parse.Rules` : what the rules ask of a parser, with steps in any monad;
* `Parse.Rules.chain`, `Parse.Rules.operand` : the results of a chain of operators and of one
  operand.
-/

namespace Ordinate.Parse

/-! ## Parts of a text -/

abbrev Sides (text : List Char) : Type :=
  {s : Split // s.left.length < text.length ∧ s.right.length < text.length}

abbrev Shorter (text : List Char) : Type :=
  {part : List Char // part.length < text.length}

def Precedence.sides? (p : Precedence) (text : List Char) : Option (Precedence × Sides text) :=
  match h : p.splitFrom? text with
  | some (found, s) => some (found, ⟨s, length_left_lt h, length_right_lt h⟩)
  | none => none

def logPart? (text : List Char) : Option (Shorter text) :=
  match h : logArgument? text with
  | some argument => some ⟨argument, length_lt_of_logArgument? h⟩
  | none => none

def groupPart? (text : List Char) : Option (Shorter text) :=
  match h : groupInside? text with
  | some inside => some ⟨inside, length_lt_of_groupInside? h⟩
  | none => none

section Parts

variable {p found : Precedence} {s : Split} {text inside : List Char}

theorem sides?_eq_some (h : p.splitFrom? text = some (found, s)) :
    p.sides? text = some (found, ⟨s, length_left_lt h, length_right_lt h⟩) := by
  unfold Precedence.sides?
  grind

theorem sides?_eq_none (h : p.splitFrom? text = none) : p.sides? text = none := by
  unfold Precedence.sides?
  grind

theorem logPart?_eq_some (h : logArgument? text = some inside) :
    logPart? text = some ⟨inside, length_lt_of_logArgument? h⟩ := by
  unfold logPart?
  grind

theorem logPart?_eq_none (h : logArgument? text = none) : logPart? text = none := by
  unfold logPart?
  grind

theorem groupPart?_eq_some (h : groupInside? text = some inside) :
    groupPart? text = some ⟨inside, length_lt_of_groupInside? h⟩ := by
  unfold groupPart?
  grind

theorem groupPart?_eq_none (h : groupInside? text = none) : groupPart? text = none := by
  unfold groupPart?
  grind

end Parts

/-! ## Rules -/

/-- How results are made: one node, a node above one result, and an operator above two. -/
structure Maker (τ : Type) where
  single : Label → τ
  unary : Label → τ → τ
  binary : Operator → τ → τ → τ
  /-- The number of nodes. -/
  size : τ → Nat

/-- The steps of a parser in the monad `m`, and how it makes its results, of type `τ`. -/
structure Rules (m : Type → Type) (τ : Type) extends Maker τ where
  splitFrom? : (p : Precedence) → (text : List Char) → m (Option (Precedence × Sides text))
  logArgument? : (text : List Char) → m (Option (Shorter text))
  groupInside? : (text : List Char) → m (Option (Shorter text))
  /-- The result of a text which is neither a logarithm nor a group. -/
  leaf : List Char → m τ
  /-- No rule fits. -/
  reject : Event → m τ
  /-- The step inside a group or a logarithm. -/
  deeper : m τ → m τ

namespace Rules

variable {m : Type → Type} {τ : Type}

/-- The same rules with steps in another monad, and with another step inside groups. -/
def lift {k : Type → Type} (R : Rules m τ) (step : {β : Type} → m β → k β) (deeper : k τ → k τ) :
    Rules k τ where
  toMaker := R.toMaker
  splitFrom? p text := step (R.splitFrom? p text)
  logArgument? text := step (R.logArgument? text)
  groupInside? text := step (R.groupInside? text)
  leaf text := step (R.leaf text)
  reject event := step (R.reject event)
  deeper := deeper

variable [Monad m]

def join (R : Rules m τ) (links : List (τ × Operator)) (last : τ) : τ :=
  links.foldl (fun right link => R.binary link.2 link.1 right) last

mutual

def chain (R : Rules m τ) (links : List (τ × Operator)) (p : Precedence) (text : List Char) :
    m τ := do
  match ← R.splitFrom? p text with
  | some (found, ⟨s, _⟩) =>
    if s.left = [] ∨ s.right = [] then R.reject (.missingOperand s.op (String.ofList text))
    else
      let left ← R.leftSide found s.left
      R.chain ((left, s.op) :: links) .sum s.right
  | none =>
    let last ← R.operand text
    return R.join links last
termination_by 3 * text.length + 1

/-- The result of a text on the left of an operator of precedence `p`: it has none as loose. -/
def leftSide (R : Rules m τ) (p : Precedence) (text : List Char) : m τ :=
  match p.tighter with
  | some next => R.chain [] next text
  | none => R.operand text
termination_by 3 * text.length + 2

def operand (R : Rules m τ) (text : List Char) : m τ := do
  match ← R.logArgument? text with
  | some ⟨argument, _⟩ => R.unary .log <$> R.deeper (R.chain [] .sum argument)
  | none =>
    if text.head? = some '(' then
      match ← R.groupInside? text with
      | some ⟨inside, _⟩ => R.unary .group <$> R.deeper (R.chain [] .sum inside)
      | none => R.reject (.notOneGroup (String.ofList text))
    else R.leaf text
termination_by 3 * text.length

end

end Rules

/-! ## The cases of the rules -/

namespace Rules

variable {m : Type → Type} [Monad m] [LawfulMonad m] {τ : Type} {R : Rules m τ}
  {links : List (τ × Operator)} {p found : Precedence} {text : List Char}

theorem chain_of_none (h : R.splitFrom? p text = pure none) :
    R.chain links p text = R.join links <$> R.operand text := by
  rw [chain, h, pure_bind, map_eq_pure_bind]

theorem chain_of_some {s : Sides text} (h : R.splitFrom? p text = pure (some (found, s))) :
    R.chain links p text =
      if s.val.left = [] ∨ s.val.right = [] then
        R.reject (.missingOperand s.val.op (String.ofList text))
      else
        R.leftSide found s.val.left >>= fun left =>
          R.chain ((left, s.val.op) :: links) .sum s.val.right := by
  rw [chain, h, pure_bind]

theorem operand_of_log {part : Shorter text} (h : R.logArgument? text = pure (some part)) :
    R.operand text = R.unary .log <$> R.deeper (R.chain [] .sum part.val) := by
  rw [operand, h, pure_bind]

theorem operand_of_group {part : Shorter text} (hl : R.logArgument? text = pure none)
    (hp : text.head? = some '(') (h : R.groupInside? text = pure (some part)) :
    R.operand text = R.unary .group <$> R.deeper (R.chain [] .sum part.val) := by
  rw [operand, hl, pure_bind]
  dsimp only
  rw [if_pos hp, h, pure_bind]

theorem operand_of_unclosed (hl : R.logArgument? text = pure none) (hp : text.head? = some '(')
    (h : R.groupInside? text = pure none) :
    R.operand text = R.reject (.notOneGroup (String.ofList text)) := by
  rw [operand, hl, pure_bind]
  dsimp only
  rw [if_pos hp, h, pure_bind]

theorem operand_of_leaf (hl : R.logArgument? text = pure none) (hp : text.head? ≠ some '(') :
    R.operand text = R.leaf text := by
  rw [operand, hl, pure_bind]
  exact if_neg hp

end Rules

end Ordinate.Parse

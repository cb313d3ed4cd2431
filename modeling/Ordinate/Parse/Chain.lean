import Ordinate.Parse.Attempt
import Ordinate.Parse.Rules

/-!
# Chains of operators

* `Parse.Maker.readLeaf` : the leaf of a number, the variable or any other word;
* `Parse.Maker.rules`, `Parse.rules` : the steps of the parser, and of the parser of trees;
* `Parse.chain`, `Parse.operand` : the trees of a chain of operators and of one operand;
* `Parse.chain_of_splitFrom?_eq_some` and its siblings : one equation for each case of the rules.
-/

namespace Ordinate.Parse

/-! ## Leaves -/

/-- Whether a text which is neither a number nor the variable is kept as a leaf: it has a letter or
a digit, and no parenthesis. -/
def isWord (text : List Char) : Bool :=
  text.any Text.isAlphanumeric && !text.any fun c => c = '(' || c = ')'

/-- The leaf written by a text. Numbers are kept in their normal spelling. -/
def Maker.readLeaf {τ : Type} (M : Maker τ) (text : List Char) : Attempt τ :=
  match Literal.read text with
  | some v => pure (M.single (.ofFloat v))
  | none =>
    if text = ['x'] then pure (M.single .var)
    else
      let word := String.ofList text
      if isWord text then accept (.keptLeaf word) (M.single (.unknown word))
      else reject (.strangeOperand word)

/-! ## Chains -/

/-- The operators of a chain, the last one first, and the tree on the left of each. -/
abbrev Links : Type :=
  List (Tree × Operator)

/-- The tree of a chain from its links and the tree behind the last of them. -/
def Links.join (links : Links) (last : Tree) : Tree :=
  links.foldl (fun right link => .binary link.2 link.1 right) last

def Maker.rules {τ : Type} (M : Maker τ) (limits : Limits) : Rules Attempt τ where
  toMaker := M
  splitFrom? p text := pure (p.sides? text)
  logArgument? text := pure (logPart? text)
  groupInside? text := pure (groupPart? text)
  leaf := M.readLeaf
  reject := reject
  deeper := deeper limits

def Maker.tree : Maker Tree where
  single := Tree.leaf
  unary := Tree.unary
  binary := Tree.binary
  size := Tree.size

def leaf (text : List Char) : Attempt Tree :=
  Maker.tree.readLeaf text

def rules (limits : Limits) : Rules Attempt Tree :=
  Maker.tree.rules limits

def chain (limits : Limits) (links : Links) (p : Precedence) (text : List Char) : Attempt Tree :=
  (rules limits).chain links p text

def leftSide (limits : Limits) (p : Precedence) (text : List Char) : Attempt Tree :=
  (rules limits).leftSide p text

def operand (limits : Limits) (text : List Char) : Attempt Tree :=
  (rules limits).operand text

/-! ## The cases of the rules -/

section Cases

variable {limits : Limits} {links : Links} {p found : Precedence} {s : Split}
  {text inside : List Char}

theorem chain_of_splitFrom?_eq_none (h : p.splitFrom? text = none) :
    chain limits links p text = links.join <$> operand limits text :=
  Rules.chain_of_none (R := rules limits) (congrArg pure (sides?_eq_none h))

theorem chain_of_missing_operand (h : p.splitFrom? text = some (found, s))
    (hs : s.left = [] ∨ s.right = []) :
    chain limits links p text = reject (.missingOperand s.op (String.ofList text)) := by
  rw [chain, Rules.chain_of_some (congrArg pure (sides?_eq_some h))]
  exact if_pos hs

theorem chain_of_splitFrom?_eq_some (h : p.splitFrom? text = some (found, s))
    (hs : ¬(s.left = [] ∨ s.right = [])) :
    chain limits links p text =
      leftSide limits found s.left >>= fun left =>
        chain limits ((left, s.op) :: links) .sum s.right := by
  rw [chain, Rules.chain_of_some (congrArg pure (sides?_eq_some h))]
  exact if_neg hs

theorem leftSide_eq (p : Precedence) (text : List Char) :
    leftSide limits p text =
      match p.tighter with
      | some next => chain limits [] next text
      | none => operand limits text := by
  rw [leftSide, Rules.leftSide]
  rfl

theorem operand_of_logArgument? (h : logArgument? text = some inside) :
    operand limits text = Tree.unary .log <$> deeper limits (chain limits [] .sum inside) :=
  Rules.operand_of_log (R := rules limits) (congrArg pure (logPart?_eq_some h))

theorem operand_of_groupInside? (hl : logArgument? text = none)
    (h : groupInside? text = some inside) :
    operand limits text = Tree.unary .group <$> deeper limits (chain limits [] .sum inside) := by
  have hp : text.head? = some '(' := by
    rw [text_of_groupInside? h, List.head?_cons]
  exact Rules.operand_of_group (R := rules limits) (congrArg pure (logPart?_eq_none hl)) hp
    (congrArg pure (groupPart?_eq_some h))

theorem operand_of_head?_eq (hl : logArgument? text = none) (hp : text.head? = some '(')
    (h : groupInside? text = none) :
    operand limits text = reject (.notOneGroup (String.ofList text)) :=
  Rules.operand_of_unclosed (R := rules limits) (congrArg pure (logPart?_eq_none hl)) hp
    (congrArg pure (groupPart?_eq_none h))

theorem operand_of_head?_ne (hl : logArgument? text = none) (hp : text.head? ≠ some '(') :
    operand limits text = leaf text :=
  Rules.operand_of_leaf (R := rules limits) (congrArg pure (logPart?_eq_none hl)) hp

end Cases

end Ordinate.Parse

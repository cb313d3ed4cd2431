import Ordinate.Operator
import Ordinate.Text.Alphanumeric

/-!
# Where a text splits

A text splits at the first operator outside all parentheses of the loosest precedence which has one.

* `Parse.Precedence` : sums, products and powers, the loosest first;
* `Parse.Precedence.operatorAt?` : whether a character is an operator of a precedence, which for the
  signs depends on the text before it;
* `Parse.Precedence.split?` : the first split of a text at one precedence, and
  `Parse.Precedence.splitFrom?` the loosest from one precedence on;
* `Parse.text_of_splitFrom?` : a split loses nothing.
-/

namespace Ordinate.Parse

/-- How tightly operators bind, the loosest first. -/
inductive Precedence where
  | sum
  | product
  | power
deriving DecidableEq

namespace Precedence

/-- The next tighter precedence; what is tighter than a power is an operand. -/
def tighter : Precedence → Option Precedence
  | sum => some product
  | product => some power
  | power => none

/-- A precedence and all tighter ones. -/
def andTighter : Precedence → List Precedence
  | sum => [sum, product, power]
  | product => [product, power]
  | power => [power]

end Precedence

/-! ## Signs

The text before a character is given from that character backwards. -/

def isMantissaChar (c : Char) : Bool :=
  c.isDigit || c = '.'

/-- Whether a sign after the text `before` belongs to the exponent of a number: right before it
stands an `e`, and before that a mantissa with a digit, which does not continue a word. -/
def endsInExponentMark : List Char → Bool
  | [] => false
  | e :: before =>
    (e = 'e' || e = 'E') && (before.takeWhile isMantissaChar).any Char.isDigit &&
      !(before.dropWhile isMantissaChar).head?.any Text.isAlphanumeric

/-- Whether a `-` after the text `before` is an operator: at the start and after another operator it
is the sign of what follows. -/
def admitsMinus : List Char → Bool
  | [] => false
  | c :: before => !(c ∈ ['*', '+', '/', '^', '-']) && !endsInExponentMark (c :: before)

/-! ## Splits -/

structure Split where
  left : List Char
  op : Operator
  right : List Char

def Split.text (s : Split) : List Char :=
  s.left ++ s.op.char :: s.right

namespace Precedence

/-- The operator of a precedence written by `c` after the text `before`. -/
def operatorAt? (p : Precedence) (before : List Char) (c : Char) : Option Operator :=
  match p with
  | sum =>
    if c = '+' ∧ !endsInExponentMark before then some .add
    else if c = '-' ∧ admitsMinus before then some .subtract
    else none
  | product =>
    if c = '*' then some .multiply else if c = '/' then some .divide else none
  | power => if c = '^' then some .power else none

/-- The first split at an operator of precedence `p` outside all parentheses, where the text
`before` has been passed already and `depth` parentheses of it are open. -/
def scan (p : Precedence) (depth : Int) (before : List Char) : List Char → Option Split
  | [] => none
  | c :: rest =>
    if c = '(' then p.scan (depth + 1) (c :: before) rest
    else if c = ')' then p.scan (depth - 1) (c :: before) rest
    else
      match if depth = 0 then p.operatorAt? before c else none with
      | some op => some ⟨before.reverse, op, rest⟩
      | none => p.scan depth (c :: before) rest

/-- The first split of a text at an operator of precedence `p`. -/
def split? (p : Precedence) (text : List Char) : Option Split :=
  p.scan 0 [] text

/-- The first split of a text at an operator of precedence `p`, or else of the next tighter one
which the text has, with the precedence of its operator. -/
def splitFrom? (p : Precedence) (text : List Char) : Option (Precedence × Split) :=
  p.andTighter.findSome? fun found => (found.split? text).map (found, ·)

end Precedence

/-! ## A split loses nothing -/

theorem char_of_operatorAt? {p : Precedence} {before : List Char} {c : Char} {op : Operator}
    (h : p.operatorAt? before c = some op) : op.char = c := by
  cases p <;> simp only [Precedence.operatorAt?] at h <;> grind [Operator.char]

theorem text_of_scan {p : Precedence} {depth : Int} {before text : List Char} {s : Split}
    (h : p.scan depth before text = some s) : s.text = before.reverse ++ text := by
  induction text generalizing depth before with
  | nil => simp [Precedence.scan] at h
  | cons c rest ih =>
    rw [Precedence.scan] at h
    split at h
    · simpa using ih h
    split at h
    · simpa using ih h
    split at h
    · next op hop =>
      cases h
      split at hop
      · rw [Split.text, char_of_operatorAt? hop]
      · cases hop
    · simpa using ih h

theorem text_of_splitFrom? {p found : Precedence} {text : List Char} {s : Split}
    (h : p.splitFrom? text = some (found, s)) : s.text = text := by
  obtain ⟨q, -, hq⟩ := List.exists_of_findSome?_eq_some h
  obtain ⟨s', hs, heq⟩ := Option.map_eq_some_iff.1 hq
  cases heq
  rw [text_of_scan hs, List.reverse_nil, List.nil_append]

theorem length_left_lt {p found : Precedence} {text : List Char} {s : Split}
    (h : p.splitFrom? text = some (found, s)) : s.left.length < text.length := by
  rw [← text_of_splitFrom? h, Split.text, List.length_append, List.length_cons]
  omega

theorem length_right_lt {p found : Precedence} {text : List Char} {s : Split}
    (h : p.splitFrom? text = some (found, s)) : s.right.length < text.length := by
  rw [← text_of_splitFrom? h, Split.text, List.length_append, List.length_cons]
  omega

end Ordinate.Parse

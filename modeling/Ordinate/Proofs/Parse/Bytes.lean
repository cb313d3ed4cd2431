import Mathlib.Data.String.Basic
import Ordinate.Proofs.Parse.Scan

/-!
# Splits and groups by bytes

The rules take a text apart by its characters. Here the same is done by the bytes of its UTF-8
encoding, and with counters which have a limit; a step which would be wrong has a fault instead of a
result.

* `Parse.Fault` : what can be wrong with a step;
* `Parse.cut` : the parts of a text before and behind a byte;
* `Parse.Bytes.splitFrom`, `Parse.Bytes.sides` : where a text splits, and what is on both sides;
* `Parse.Bytes.groupInside`, `Parse.Bytes.logArgument` : the inside of a group and of a logarithm;
* `Parse.Bytes.splitFrom_eq`, `Parse.Bytes.sides_eq`, `Parse.Bytes.groupInside_eq` : if the
  parentheses of a text are balanced there is no fault, and the characters give the same.
-/

namespace Ordinate.Parse

open String (utf8Len utf8Len_append utf8Len_cons utf8Len_eq_zero utf8Len_nil)

/-! ## Faults -/

/-- What can be wrong with a step of a parser. -/
inductive Fault where
  /-- A text is cut inside a character or behind its end. -/
  | offBoundary
  /-- A counter is taken below zero. -/
  | belowZero
  /-- A counter is taken up to its limit. -/
  | overflow
  /-- A rule is given a text whose parentheses are not balanced. -/
  | unbalanced
  /-- A text is split elsewhere than at an ASCII operator outside all parentheses. -/
  | notOperator
  /-- A rule leads to a text which is not shorter. -/
  | notShorter
deriving DecidableEq

theorem ok_bind {β γ : Type} (b : β) (f : β → Except Fault γ) : Except.ok b >>= f = f b := rfl

def ensure (P : Prop) [Decidable P] (fault : Fault) : Except Fault Unit :=
  if P then .ok () else .error fault

theorem ensure_eq_ok {P : Prop} [Decidable P] (h : P) (fault : Fault) :
    ensure P fault = .ok () :=
  if_pos h

/-- The numbers which a counter holds are below this one. -/
def counterLimit : Nat :=
  2 ^ 31

def increment (n : Nat) : Except Fault Nat :=
  if n + 1 < counterLimit then .ok (n + 1) else .error .overflow

def decrement : Nat → Except Fault Nat
  | 0 => .error .belowZero
  | n + 1 => .ok n

theorem increment_eq_ok {n : Nat} (h : n + 1 < counterLimit) : increment n = .ok (n + 1) :=
  if_pos h

/-! ## Cuts -/

/-- The parts of a text before and behind a byte. -/
def cut (index : Nat) : List Char → Except Fault (List Char × List Char)
  | [] => if index = 0 then .ok ([], []) else .error .offBoundary
  | c :: text =>
    if index = 0 then .ok ([], c :: text)
    else if index < c.utf8Size then .error .offBoundary
    else do
      let (front, behind) ← cut (index - c.utf8Size) text
      return (c :: front, behind)

theorem cut_append (a b : List Char) : cut (utf8Len a) (a ++ b) = .ok (a, b) := by
  induction a with
  | nil => cases b <;> rfl
  | cons c a ih =>
    have hc := c.utf8Size_pos
    rw [List.cons_append, cut, utf8Len_cons, if_neg (by omega), if_neg (by omega),
      Nat.add_sub_cancel, ih]
    rfl

def takeBytes (index : Nat) (text : List Char) : Except Fault (List Char) :=
  Prod.fst <$> cut index text

def dropBytes (index : Nat) (text : List Char) : Except Fault (List Char) :=
  Prod.snd <$> cut index text

theorem takeBytes_append (a b : List Char) : takeBytes (utf8Len a) (a ++ b) = .ok a := by
  rw [takeBytes, cut_append]
  rfl

theorem dropBytes_append (a b : List Char) : dropBytes (utf8Len a) (a ++ b) = .ok b := by
  rw [dropBytes, cut_append]
  rfl

example : takeBytes 1 ['é', '+', 'x'] = .error .offBoundary := rfl

namespace Bytes

/-! ## Signs -/

def endsInExponentMark (text : List Char) (index : Nat) : Except Fault Bool := do
  let before ← takeBytes index text
  match before.reverse with
  | [] => return false
  | e :: mantissa =>
    if e = 'e' ∨ e = 'E' then
      let word := (mantissa.dropWhile isMantissaChar).reverse
      let digits ← dropBytes (utf8Len word) mantissa.reverse
      return digits.any Char.isDigit && !word.getLast?.any Text.isAlphanumeric
    else return false

def admitsMinus (text : List Char) (index : Nat) : Except Fault Bool := do
  let before ← takeBytes index text
  match before.reverse with
  | [] => return false
  | c :: _ =>
    if c ∈ ['*', '+', '/', '^', '-'] then return false
    else return !(← endsInExponentMark text index)

def operatorAt (p : Precedence) (text : List Char) (index : Nat) (c : Char) :
    Except Fault (Option Operator) :=
  match p with
  | .sum => do
    if c = '+' then return if ← endsInExponentMark text index then none else some .add
    else if c = '-' then return if ← admitsMinus text index then some .subtract else none
    else return none
  | .product => .ok (if c = '*' then some .multiply else if c = '/' then some .divide else none)
  | .power => .ok (if c = '^' then some .power else none)

section Signs

variable (before behind : List Char)

theorem endsInExponentMark_eq :
    endsInExponentMark (before.reverse ++ behind) (utf8Len before.reverse) =
      .ok (Parse.endsInExponentMark before) := by
  rw [endsInExponentMark, takeBytes_append, ok_bind, List.reverse_reverse]
  cases before with
  | nil => rfl
  | cons e mantissa =>
    have hmantissa : mantissa.reverse = (mantissa.dropWhile isMantissaChar).reverse ++
        (mantissa.takeWhile isMantissaChar).reverse := by
      rw [← List.reverse_append, List.takeWhile_append_dropWhile]
    dsimp only
    split
    · next he =>
      rw [hmantissa, dropBytes_append, ok_bind, List.any_reverse, List.getLast?_reverse]
      rcases he with rfl | rfl <;> rfl
    · next he =>
      obtain ⟨hlower, hupper⟩ := not_or.1 he
      rw [Parse.endsInExponentMark, decide_eq_false hlower, decide_eq_false hupper]
      rfl

theorem admitsMinus_eq :
    admitsMinus (before.reverse ++ behind) (utf8Len before.reverse) =
      .ok (Parse.admitsMinus before) := by
  rw [admitsMinus, takeBytes_append, ok_bind, List.reverse_reverse, endsInExponentMark_eq]
  cases before with
  | nil => rfl
  | cons c before =>
    dsimp only
    split
    · next hc =>
      rw [Parse.admitsMinus, decide_eq_true hc]
      rfl
    · next hc =>
      rw [Parse.admitsMinus, decide_eq_false hc]
      rfl

theorem operatorAt_eq (p : Precedence) (c : Char) :
    operatorAt p (before.reverse ++ behind) (utf8Len before.reverse) c =
      .ok (p.operatorAt? before c) := by
  cases p with
  | sum =>
    simp only [operatorAt, endsInExponentMark_eq, admitsMinus_eq, Precedence.operatorAt?]
    by_cases hplus : c = '+'
    · subst hplus
      cases Parse.endsInExponentMark before <;> rfl
    · by_cases hminus : c = '-'
      · subst hminus
        cases Parse.admitsMinus before <;> rfl
      · rw [if_neg hplus, if_neg hminus, if_neg fun h => hplus h.1, if_neg fun h => hminus h.1]
        rfl
  | product | power => rfl

end Signs

/-! ## Splits -/

/-- The first operator of precedence `p` outside all parentheses, with the byte at which it stands.
The last argument is what stands behind the byte `index` of the text, where `depth` parentheses are
open. -/
def scan (p : Precedence) (text : List Char) (depth index : Nat) :
    List Char → Except Fault (Option (Nat × Operator))
  | [] => return none
  | c :: rest => do
    if c = '(' then scan p text (← increment depth) (index + c.utf8Size) rest
    else if c = ')' then scan p text (← decrement depth) (index + c.utf8Size) rest
    else if depth = 0 then
      match ← operatorAt p text index c with
      | some op => return some (index, op)
      | none => scan p text depth (index + c.utf8Size) rest
    else scan p text depth (index + c.utf8Size) rest

/-- Where a text splits, from precedence `p` on: the precedence of the operator, the byte at which
it stands, and the operator. -/
def splitFrom (p : Precedence) (text : List Char) :
    Except Fault (Option (Precedence × Nat × Operator)) := do
  ensure (balanced 0 text) .unbalanced
  p.andTighter.findSomeM? fun found => return (← scan found text 0 0 text).map (found, ·)

/-- The sides of a split at a byte, at which the operator has to stand, outside all parentheses, and
be an ASCII character. -/
def sides (text : List Char) (index : Nat) (op : Operator) : Except Fault Split := do
  let left ← takeBytes index text
  let behind ← dropBytes index text
  ensure (behind.head? = some op.char ∧ op.char.val < 128 ∧ balanced 0 left) .notOperator
  let right ← dropBytes (index + 1) text
  ensure (balanced 0 right) .unbalanced
  return ⟨left, op, right⟩

section Splits

variable {p : Precedence}

/-- One character further a scan is behind one more character of the same text. -/
theorem scan_past (depth : Nat) (before rest : List Char) (c : Char) :
    scan p (before.reverse ++ c :: rest) depth (utf8Len before.reverse + c.utf8Size) rest =
      scan p ((c :: before).reverse ++ rest) depth (utf8Len (c :: before).reverse) rest := by
  rw [List.reverse_cons, List.append_assoc, List.singleton_append, utf8Len_append, utf8Len_cons,
    utf8Len_nil, Nat.zero_add]

theorem scan_eq {depth : Nat} {before rest : List Char} (h : Balanced depth rest)
    (hlen : depth + rest.length < counterLimit) :
    scan p (before.reverse ++ rest) depth (utf8Len before.reverse) rest =
      .ok ((p.scan depth before rest).map fun s => (utf8Len s.left, s.op)) := by
  induction h generalizing before with
  | nil => rfl
  | opening _ ih =>
    rw [List.length_cons] at hlen
    rw [scan, Precedence.scan, if_pos rfl, if_pos rfl, increment_eq_ok (by omega), ok_bind,
      scan_past]
    exact ih (by omega)
  | @closing depth rest _ ih =>
    have hdepth : ((depth + 1 : Nat) : Int) - 1 = depth := by omega
    rw [List.length_cons] at hlen
    rw [scan, Precedence.scan, if_neg (by decide), if_pos rfl, if_neg (by decide), if_pos rfl,
      decrement, ok_bind, scan_past, hdepth]
    exact ih (by omega)
  | @other depth c rest ne _ ih =>
    rw [List.length_cons] at hlen
    rw [scan, Precedence.scan, if_neg ne.1, if_neg ne.2, if_neg ne.1, if_neg ne.2, operatorAt_eq,
      ok_bind, scan_past, ih (by omega)]
    cases depth with
    | zero => cases p.operatorAt? before c <;> rfl
    | succ depth => rfl

theorem splitFrom_eq {text : List Char} (h : Balanced 0 text)
    (hlen : text.length < counterLimit) :
    splitFrom p text =
      .ok ((p.splitFrom? text).map fun found => (found.1, utf8Len found.2.left, found.2.op)) := by
  have hscan : ∀ found : Precedence, scan found text 0 0 text =
      .ok ((found.split? text).map fun s => (utf8Len s.left, s.op)) := fun found =>
    @scan_eq found 0 [] text h (by omega)
  have hfind : ∀ ps : List Precedence,
      (ps.findSomeM? fun found => return (← scan found text 0 0 text).map (found, ·)) =
        .ok ((ps.findSome? fun found => (found.split? text).map (found, ·)).map
          fun found => (found.1, utf8Len found.2.left, found.2.op)) := by
    intro ps
    induction ps with
    | nil => rfl
    | cons found ps ih =>
      rw [List.findSomeM?_cons, hscan, ih, List.findSome?_cons]
      cases found.split? text <;> rfl
  rw [splitFrom, ensure_eq_ok (balanced_iff.2 h), ok_bind]
  exact hfind p.andTighter

theorem utf8Size_char (op : Operator) : op.char.utf8Size = 1 := by
  cases op <;> rfl

theorem sides_eq {s : Split} (h : Balanced 0 s.text) (hnesting : nesting s.left = 0) :
    sides s.text (utf8Len s.left) s.op = .ok s := by
  obtain ⟨hleft, hright⟩ := h.of_append hnesting
  have hbehind : dropBytes (utf8Len s.left + 1) (s.left ++ s.op.char :: s.right) = .ok s.right := by
    have hpast := dropBytes_append (s.left ++ [s.op.char]) s.right
    rwa [utf8Len_append, utf8Len_cons, utf8Len_nil, utf8Size_char, List.append_assoc] at hpast
  have hmark : (s.op.char :: s.right).head? = some s.op.char ∧ s.op.char.val < 128 ∧
      balanced 0 s.left := by
    refine ⟨rfl, ?_, balanced_iff.2 hleft⟩
    cases s.op <;> decide
  have hrest : balanced 0 s.right := balanced_iff.2 (Balanced.char_cons_iff.1 hright)
  rw [sides, Split.text, takeBytes_append, ok_bind, dropBytes_append, ok_bind, ensure_eq_ok hmark,
    ok_bind, hbehind, ok_bind, ensure_eq_ok hrest, ok_bind]
  rfl

end Splits

/-! ## Groups -/

/-- The byte of the parenthesis which closes the first one. The last argument is what stands behind
the byte `index`, where `depth` parentheses are open. -/
def closing (depth index : Nat) : List Char → Except Fault (Option Nat)
  | [] => return none
  | c :: rest => do
    if c = '(' then closing (← increment depth) (index + c.utf8Size) rest
    else if c = ')' then
      let outer ← decrement depth
      if outer = 0 then return some index else closing outer (index + c.utf8Size) rest
    else closing depth (index + c.utf8Size) rest

def groupInside (text : List Char) : Except Fault (Option (List Char)) := do
  ensure (balanced 0 text) .unbalanced
  if text.head? = some '(' then
    match ← closing 0 0 text with
    | some index =>
      if index = (← decrement (utf8Len text)) then
        return some (← dropBytes 1 (← takeBytes index text))
      else return none
    | none => return none
  else return none

def logArgument : List Char → Except Fault (Option (List Char))
  | 'l' :: 'o' :: 'g' :: group => groupInside group
  | _ => return none

section Groups

variable {text : List Char}

theorem closing_append {n : Nat} {a : List Char} (h : Balanced n a)
    (hlen : n + 1 + a.length < counterLimit) (index : Nat) (b : List Char) :
    closing (n + 1) index (a ++ ')' :: b) = .ok (some (index + utf8Len a)) := by
  induction h generalizing index with
  | nil => rfl
  | opening _ ih =>
    rw [List.length_cons] at hlen
    rw [List.cons_append, closing, if_pos rfl, increment_eq_ok (by omega), ok_bind,
      ih (by omega), utf8Len_cons, Nat.add_right_comm, Nat.add_assoc]
  | @closing n rest _ ih =>
    rw [List.length_cons] at hlen
    rw [List.cons_append, closing, if_neg (by decide), if_pos rfl, decrement, ok_bind,
      if_neg (by omega), ih (by omega), utf8Len_cons, Nat.add_right_comm, Nat.add_assoc]
  | other ne _ ih =>
    rw [List.length_cons] at hlen
    rw [List.cons_append, closing, if_neg ne.1, if_neg ne.2, ih (by omega), utf8Len_cons,
      Nat.add_right_comm, Nat.add_assoc]

/-- The last byte of a text which starts with a parenthesis, counted from the one that closes it. -/
theorem decrement_group (a b : List Char) :
    decrement (utf8Len ('(' :: (a ++ ')' :: b))) = .ok (utf8Len ('(' :: a) + utf8Len b) := by
  have hopen : '('.utf8Size = 1 := rfl
  have hclose : ')'.utf8Size = 1 := rfl
  rw [utf8Len_cons, utf8Len_cons, utf8Len_append, utf8Len_cons, hopen, hclose, decrement]
  congr 1
  omega

theorem groupInside_group_eq {rest : List Char} (h : Balanced 0 ('(' :: rest))
    (hlen : ('(' :: rest).length < counterLimit) :
    groupInside ('(' :: rest) = .ok (groupInside? ('(' :: rest)) := by
  obtain ⟨a, b, rfl, ha, hgroup⟩ := h.groupInside?_eq
  simp only [List.length_cons, List.length_append] at hlen
  have hclosing : closing 0 0 ('(' :: (a ++ ')' :: b)) = .ok (some (utf8Len ('(' :: a))) := by
    rw [closing, if_pos rfl, increment_eq_ok (by omega), ok_bind, closing_append ha (by omega),
      Nat.zero_add, Nat.add_comm]
    rfl
  have hfront : takeBytes (utf8Len ('(' :: a)) ('(' :: (a ++ ')' :: b)) = .ok ('(' :: a) :=
    takeBytes_append ('(' :: a) (')' :: b)
  have hinside : dropBytes 1 ('(' :: a) = .ok a := dropBytes_append ['('] a
  rw [groupInside, ensure_eq_ok (balanced_iff.2 h), ok_bind, List.head?_cons, if_pos rfl, hclosing,
    ok_bind]
  dsimp only
  rw [decrement_group, ok_bind, hfront, ok_bind, hinside, hgroup]
  -- The closing parenthesis is the last byte exactly if nothing stands behind it.
  by_cases hb : b = []
  · rw [if_pos (by rw [hb, utf8Len_nil, Nat.add_zero]), if_pos hb]
    rfl
  · have hpos : utf8Len b ≠ 0 := fun hzero => hb (utf8Len_eq_zero.1 hzero)
    rw [if_neg (by omega), if_neg hb]
    rfl

theorem groupInside_eq (h : Balanced 0 text) (hlen : text.length < counterLimit) :
    groupInside text = .ok (groupInside? text) := by
  unfold groupInside?
  split
  · exact groupInside_group_eq h hlen
  · next hother =>
    have hhead : text.head? ≠ some '(' := by
      intro hhead
      cases text with
      | nil => cases hhead
      | cons c rest => exact hother rest (by rw [Option.some.inj hhead])
    rw [groupInside, ensure_eq_ok (balanced_iff.2 h), ok_bind, if_neg hhead]
    rfl

example : groupInside ['(', 'x'] = .error .unbalanced ∧ closing 0 0 [')'] = .error .belowZero :=
  ⟨rfl, rfl⟩

theorem logArgument_eq (h : Balanced 0 text) (hlen : text.length < counterLimit) :
    logArgument text = .ok (logArgument? text) := by
  by_cases hlog : ∃ group, text = 'l' :: 'o' :: 'g' :: group
  · obtain ⟨group, rfl⟩ := hlog
    simp only [List.length_cons] at hlen
    exact groupInside_eq (Balanced.log_cons_iff.1 h) (by omega)
  · have hnone : logArgument? text = none := by
      unfold logArgument?
      split
      · next group => exact absurd ⟨group, rfl⟩ hlog
      · rfl
    rw [hnone]
    unfold logArgument
    split
    · next group => exact absurd ⟨group, rfl⟩ hlog
    · rfl

end Groups

end Bytes

end Ordinate.Parse

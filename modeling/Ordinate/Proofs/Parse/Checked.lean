import Ordinate.Proofs.Expression.Text
import Ordinate.Proofs.Parse.Bytes

/-!
# A parser which checks its steps

* `Parse.Checked` : a step of a parser which may also have a fault;
* `Parse.Checked.rules`, `Parse.Checked.parse` : the rules, by bytes, with a check of every text which
  they are given, of every cut and count, and that they come to an end;
* `Parse.Checked.follows_ofAttempt` : on balanced texts these are the rules without the checks;
* `Parse.checked_parse` : so no parse has a fault.
-/

namespace Ordinate.Parse

/-- A step of a parser which may have a fault, and may fail if it has none. -/
abbrev Checked : Type → Type :=
  ExceptT Reason (StateT State (Except Fault))

namespace Checked

variable {limits : Limits} {β γ : Type}

def ofAttempt (step : Attempt β) : Checked β := fun s =>
  .ok (step s)

def ofExcept (m : Except Fault β) : Checked β := fun s =>
  m.map fun b => (.ok b, s)

/-- Take a step one level deeper, and leave the level again whether or not the step fails. -/
def deeper (limits : Limits) (step : Checked Tree) : Checked Tree := fun s =>
  if limits.depth ≤ s.depth then .ok (.error (.tooDeep limits.depth), s)
  else do
    let (result, s') ← step { s with depth := s.depth + 1 }
    return (result, { s' with depth := ← decrement s'.depth })

/-- The split of a text by bytes, of which both sides have to be shorter than the text. -/
def splitFrom? (p : Precedence) (text : List Char) :
    Checked (Option (Precedence × Sides text)) :=
  ofExcept do
    match ← Bytes.splitFrom p text with
    | some (found, index, op) =>
      let s ← Bytes.sides text index op
      if h : s.left.length < text.length ∧ s.right.length < text.length then
        return some (found, ⟨s, h⟩)
      else .error .notShorter
    | none => return none

def shorter (text : List Char) : Option (List Char) → Except Fault (Option (Shorter text))
  | some part => if h : part.length < text.length then .ok (some ⟨part, h⟩) else .error .notShorter
  | none => .ok none

def logArgument? (text : List Char) : Checked (Option (Shorter text)) :=
  ofExcept do
    ensure (balanced 0 text) .unbalanced
    shorter text (← Bytes.logArgument text)

def groupInside? (text : List Char) : Checked (Option (Shorter text)) :=
  ofExcept do
    shorter text (← Bytes.groupInside text)

def rules (limits : Limits) : Rules Checked Tree :=
  { (Parse.rules limits).lift ofAttempt (deeper limits) with
    splitFrom? := splitFrom?
    logArgument? := logArgument?
    groupInside? := groupInside? }

/-- The tree of a text, blank characters aside. -/
def parse (limits : Limits) (text : String) : StateT State (Except Fault) (Except Failure Tree) :=
  (rules limits).parse limits text

/-! ## Steps without a fault -/

theorem ofAttempt_bind (m : Attempt β) (f : β → Attempt γ) :
    ofAttempt (m >>= f) = ofAttempt m >>= fun b => ofAttempt (f b) := by
  funext s
  show _ = ExceptT.bindCont (fun b => ofAttempt (f b)) (m s).1 (m s).2
  rcases h : m s with ⟨reason | b, s'⟩
  · rw [ofAttempt, bind_of_error h]
    rfl
  · rw [ofAttempt, bind_of_ok h]
    rfl

theorem deeper_ofAttempt {step : Attempt Tree} (h : KeepsLevel step) :
    deeper limits (ofAttempt step) = ofAttempt (Parse.deeper limits step) := by
  funext s
  have hlevel := (h { s with depth := s.depth + 1 }).2
  unfold deeper ofAttempt Parse.deeper
  split
  · rfl
  · rcases hstep : step { s with depth := s.depth + 1 } with ⟨result, s'⟩
    rw [hstep] at hlevel
    rw [ok_bind]
    dsimp only at hlevel ⊢
    rw [hlevel]
    rfl

/-! ## Rules without a fault -/

section Rules

variable {text : List Char}

theorem splitFrom?_eq (h : Balanced 0 text) (hlen : text.length < counterLimit) (p : Precedence) :
    splitFrom? p text = pure (p.sides? text) := by
  rw [splitFrom?, Bytes.splitFrom_eq h hlen, ok_bind]
  cases hsplit : p.splitFrom? text with
  | none =>
    rw [sides?_eq_none hsplit]
    rfl
  | some first =>
    obtain ⟨found, s⟩ := first
    have hshorter := And.intro (length_left_lt hsplit) (length_right_lt hsplit)
    obtain ⟨htext, -, -, hnesting, -⟩ := Precedence.of_splitFrom? hsplit
    have hsides : Bytes.sides text (String.utf8Len s.left) s.op = .ok s := by
      rw [← htext] at h ⊢
      exact Bytes.sides_eq h hnesting
    rw [sides?_eq_some hsplit]
    dsimp only [Option.map_some]
    rw [hsides, ok_bind, dif_pos hshorter]
    rfl

theorem logArgument?_eq (h : Balanced 0 text) (hlen : text.length < counterLimit) :
    logArgument? text = pure (logPart? text) := by
  rw [logArgument?, ensure_eq_ok (balanced_iff.2 h), ok_bind, Bytes.logArgument_eq h hlen, ok_bind]
  cases hl : Parse.logArgument? text with
  | some inside =>
    rw [logPart?_eq_some hl, shorter, dif_pos (length_lt_of_logArgument? hl)]
    rfl
  | none =>
    rw [logPart?_eq_none hl]
    rfl

theorem groupInside?_eq (h : Balanced 0 text) (hlen : text.length < counterLimit) :
    groupInside? text = pure (groupPart? text) := by
  rw [groupInside?, Bytes.groupInside_eq h hlen, ok_bind]
  cases hg : Parse.groupInside? text with
  | some inside =>
    rw [groupPart?_eq_some hg, shorter, dif_pos (length_lt_of_groupInside? hg)]
    rfl
  | none =>
    rw [groupPart?_eq_none hg]
    rfl

end Rules

/-- On balanced texts the checked rules are those without the checks. -/
theorem follows_ofAttempt (limits : Limits) :
    Follows (rules limits) id limits (fun x y => x = ofAttempt y ∧ KeepsLevel y)
      fun text => Balanced 0 text ∧ text.length < counterLimit where
  pure t := ⟨rfl, keepsLevel_pure t⟩
  bind h hk := by
    refine ⟨?_, h.2.bind fun t => (hk t).2⟩
    rw [h.1, ofAttempt_bind]
    exact bind_congr fun t => (hk t).1
  splitFrom? h p := splitFrom?_eq h.1 h.2 p
  logArgument? h := logArgument?_eq h.1 h.2
  groupInside? h := groupInside?_eq h.1 h.2
  leaf text := ⟨rfl, keepsLevel_leaf text⟩
  reject event := ⟨rfl, keepsLevel_reject event⟩
  deeper h := by
    refine ⟨?_, h.2.deeper⟩
    rw [h.1]
    exact deeper_ofAttempt h.2
  unary _ _ := rfl
  binary _ _ _ := rfl
  sides h hsplit := by
    have hleft := length_left_lt hsplit
    have hright := length_right_lt hsplit
    obtain ⟨hbalanced, hlen⟩ := h
    obtain ⟨htext, -, -, hnesting, -⟩ := Precedence.of_splitFrom? hsplit
    rw [← htext] at hbalanced
    obtain ⟨hbefore, hbehind⟩ := hbalanced.of_append hnesting
    exact ⟨⟨hbefore, by omega⟩, Balanced.char_cons_iff.1 hbehind, by omega⟩
  argument h hl := ⟨h.1.of_logArgument? hl, (length_lt_of_logArgument? hl).trans h.2⟩
  inside h hg := ⟨h.1.of_groupInside? hg, (length_lt_of_groupInside? hg).trans h.2⟩

theorem chain_eq {text : List Char} (h : Balanced 0 text) (hlen : text.length < counterLimit)
    (links : Links) (p : Precedence) :
    (rules limits).chain links p text = ofAttempt (chain limits links p text) :=
  ((follows_ofAttempt limits).chain_id ⟨h, hlen⟩ links p).1

theorem whole_eq {text : List Char} (hlen : text.length < counterLimit) :
    (rules limits).whole limits text = ofAttempt ((Parse.rules limits).whole limits text) := by
  unfold Rules.whole
  cases hadmit : limits.admit text with
  | ok => exact chain_eq (balanced_iff.1 (admit_eq_ok_iff.1 hadmit).2) hlen _ _
  | error reason => rfl

end Checked

/-- No step of the parse of a text of fewer than `2 ^ 31` characters has a fault: each rule is given
a text with balanced parentheses, splits it at an ASCII operator outside all of them, cuts it only
between characters, counts within bounds, and leads to shorter texts only. With all these checks the
result, the notes and the level are those without. -/
theorem checked_parse (limits : Limits) {text : String} (h : text.length < 2 ^ 31) (s : State) :
    Checked.parse limits text s = .ok (parse limits text s) := by
  have hlen : (stripped text).length < counterLimit :=
    Nat.lt_of_le_of_lt (List.length_filter_le _ _) h
  unfold Checked.parse parse Rules.parse
  rw [Checked.whole_eq hlen, Checked.ofAttempt, ok_bind]
  rcases (rules limits).whole limits (stripped text) { s with depth := 0 } with ⟨reason | t, s'⟩
  · rfl
  · rfl

theorem checked_parse_letters :
    "é^(1e-5) + log((ß-x))".length < 2 ^ 31 ∧
      Checked.parse {} "é^(1e-5) + log((ß-x))" {} = .ok (parse {} "é^(1e-5) + log((ß-x))" {}) := by
  have hlen : "é^(1e-5) + log((ß-x))".length < 2 ^ 31 := by decide +kernel
  exact ⟨hlen, checked_parse {} hlen {}⟩

end Ordinate.Parse

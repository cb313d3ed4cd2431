import Ordinate.Proofs.Parse.Outcome

/-!
# Texts inside of groups

One more group around a text costs one level, and nothing else changes.

* `Parse.Limits.deepened`, `Parse.Reason.within` : limits which allow one more level, and what they
  make of a reason;
* `Parse.resultAt_succ` : one level deeper, with one more level allowed, texts have the same trees;
* `Parse.groupText`, `Parse.logText` : texts in parentheses;
* `Parse.outcome_operation`, `Parse.outcome_logText` : what becomes of two groups with an operator
  between them, and of a logarithm;
* `Expression.ofText_nested` : the trees of such texts are made of those of their parts, and such
  texts are refused as the first refused part of them is.
-/

namespace Ordinate

open Parse

namespace Parse

/-- The limits which allow one more group or logarithm around a text. -/
def Limits.deepened (limits : Limits) : Limits :=
  { limits with depth := limits.depth + 1 }

/-- The reason where no more than `limit` groups and logarithms may be around one another. -/
def Reason.within (limit : Nat) : Reason → Reason
  | tooDeep _ => tooDeep limit
  | reason => reason

variable {limits : Limits}

/-! ## One level deeper -/

section MapError

variable {β γ : Type}

theorem mapError_bind (g : Reason → Reason) (m : Except Reason β) (f : β → Except Reason γ) :
    (m >>= f).mapError g = m.mapError g >>= fun b => (f b).mapError g := by
  cases m <;> rfl

theorem mapError_map (g : Reason → Reason) (m : Except Reason β) (f : β → γ) :
    (f <$> m).mapError g = f <$> m.mapError g := by
  cases m <;> rfl

end MapError

/-- One level deeper, and with one more level allowed, a text has the same tree or fails for the
same reason, up to the limit which a reason tells. -/
theorem resultAt_succ (depth : Nat) (p : Option Precedence) (text : List Char) :
    resultAt (depth + 1) (attempt limits.deepened p text) =
      (resultAt depth (attempt limits p text)).mapError (.within limits.deepened.depth) := by
  -- Depth and limit both grow by one, so that the two parsers meet their limits together.
  have hle : limits.deepened.depth ≤ depth + 1 ↔ limits.depth ≤ depth := Nat.succ_le_succ_iff
  induction depth, p, text using attempt_induction with
  | split depth p found text s hs ihl ihr =>
    rw [resultAt_of_splitFrom?_eq_some hs, resultAt_of_splitFrom?_eq_some hs, ihl hle, ihr hle]
    split
    · rfl
    · simp only [mapError_bind]
      rfl
  | whole depth p text hs ih =>
    rw [resultAt_of_splitFrom?_eq_none hs, resultAt_of_splitFrom?_eq_none hs, ih hle]
  | log depth text inside hl ih =>
    rw [resultAt_of_logArgument? hl, resultAt_of_logArgument? hl, ih Nat.succ_le_succ_iff]
    simp only [hle]
    split
    · rfl
    · rw [mapError_map]
  | group depth text inside hl hg ih =>
    rw [resultAt_of_groupInside? hl hg, resultAt_of_groupInside? hl hg, ih Nat.succ_le_succ_iff]
    simp only [hle]
    split
    · rfl
    · rw [mapError_map]
  | leaf depth text hl hg =>
    obtain ⟨result, hresult, hreason⟩ := exists_resultAt_leaf hl hg
    rw [hresult, hresult]
    cases result with
    | ok t => rfl
    | error reason =>
      rw [hreason reason rfl]
      rfl

/-! ## Texts in parentheses -/

def groupText (text : List Char) : List Char :=
  '(' :: (text ++ [')'])

def logText (text : List Char) : List Char :=
  'l' :: 'o' :: 'g' :: groupText text

/-- A text without splits gives what it gives as an operand. -/
theorem resultAt_of_split?_eq_none {text : List Char} (h : ∀ q : Precedence, q.split? text = none)
    (depth : Nat) (p : Option Precedence) :
    resultAt depth (attempt limits p text) = resultAt depth (attempt limits none text) := by
  cases p with
  | none => rfl
  | some p =>
    apply resultAt_of_splitFrom?_eq_none
    exact Precedence.splitFrom?_eq_none_iff.2 fun q _ => h q

/-- A text without splits whose rule takes one level off gives what is inside of it, one level
deeper. -/
theorem resultAt_of_rule {label : Label} {text inside : List Char}
    (hsplit : ∀ q : Precedence, q.split? text = none)
    (hrule : ∀ depth, resultAt depth (attempt limits.deepened none text) =
      if limits.deepened.depth ≤ depth then .error (.tooDeep limits.deepened.depth)
      else Tree.unary label <$> resultAt (depth + 1) (attempt limits.deepened (some .sum) inside))
    (p : Option Precedence) :
    resultAt 0 (attempt limits.deepened p text) =
      (Tree.unary label <$> resultAt 0 (attempt limits (some .sum) inside)).mapError
        (.within limits.deepened.depth) := by
  have hopen : ¬limits.deepened.depth ≤ 0 := Nat.not_succ_le_zero limits.depth
  rw [resultAt_of_split?_eq_none hsplit, hrule, if_neg hopen, resultAt_succ, mapError_map]

theorem resultAt_groupText {text : List Char} (h : Balanced 0 text) (p : Option Precedence) :
    resultAt 0 (attempt limits.deepened p (groupText text)) =
      (Tree.unary .group <$> resultAt 0 (attempt limits (some .sum) text)).mapError
        (.within limits.deepened.depth) := by
  apply resultAt_of_rule
  · intro q
    exact Precedence.scan_group h q []
  · exact resultAt_of_groupInside? rfl (groupInside?_group h)

theorem resultAt_logText {text : List Char} (h : Balanced 0 text) (p : Option Precedence) :
    resultAt 0 (attempt limits.deepened p (logText text)) =
      (Tree.unary .log <$> resultAt 0 (attempt limits (some .sum) text)).mapError
        (.within limits.deepened.depth) := by
  apply resultAt_of_rule
  · exact Precedence.split?_log h
  · exact resultAt_of_logArgument? (groupInside?_group h)

/-- Two groups are the sides of the operator between them, whatever is inside of them. -/
theorem splitFrom?_groupText {a b : List Char} (ha : Balanced 0 a) (hb : Balanced 0 b)
    (op : Operator) :
    Precedence.sum.splitFrom? (groupText a ++ op.char :: groupText b) =
      some (op.precedence, ⟨groupText a, op, groupText b⟩) :=
  (closes_group ('(' :: a)).splitFrom? ha.group.nesting_eq (Nat.zero_le _)
    (fun q _ => Precedence.scan_group ha q []) fun q _ => Precedence.scan_group hb q []

theorem resultAt_operation {a b : List Char} (ha : Balanced 0 a) (hb : Balanced 0 b)
    (op : Operator) :
    resultAt 0 (attempt limits.deepened (some .sum) (groupText a ++ op.char :: groupText b)) =
      Except.mapError (.within limits.deepened.depth) (do
        let left ← resultAt 0 (attempt limits (some .sum) a)
        let right ← resultAt 0 (attempt limits (some .sum) b)
        return .binary op (.unary .group left) (.unary .group right)) := by
  have hne : ¬(groupText a = [] ∨ groupText b = []) := not_or.2 ⟨nofun, nofun⟩
  rw [resultAt_of_splitFrom?_eq_some (splitFrom?_groupText ha hb op), if_neg hne,
    resultAt_groupText ha, resultAt_groupText hb]
  rcases resultAt 0 (attempt limits (some .sum) a) with reason | left
  · rfl
  · rcases resultAt 0 (attempt limits (some .sum) b) with reason | right <;> rfl

/-! ## Outcomes -/

theorem outcome_logText {text : List Char} (h : Balanced 0 text)
    (hlength : (logText text).length ≤ limits.deepened.length) :
    outcome limits.deepened (logText text) =
      (Tree.unary .log <$> outcome limits text).mapError (.within limits.deepened.depth) := by
  have hbalanced : Balanced 0 (logText text) :=
    .other (by decide) (.other (by decide) (.other (by decide) h.group))
  have hinside : text.length ≤ limits.length := by
    simp only [logText, groupText, Limits.deepened, List.length_cons, List.length_append] at hlength
    omega
  rw [outcome_of_admitted hlength hbalanced, resultAt_logText h, outcome_of_admitted hinside h]

theorem outcome_operation {a b : List Char} (ha : Balanced 0 a) (hb : Balanced 0 b) (op : Operator)
    (hlength : (groupText a ++ op.char :: groupText b).length ≤ limits.deepened.length) :
    outcome limits.deepened (groupText a ++ op.char :: groupText b) =
      Except.mapError (.within limits.deepened.depth) (do
        let left ← outcome limits a
        let right ← outcome limits b
        return .binary op (.unary .group left) (.unary .group right)) := by
  have hbalanced : Balanced 0 (groupText a ++ op.char :: groupText b) :=
    ha.group.append (Balanced.char_cons_iff.2 hb.group)
  have hsides : a.length ≤ limits.length ∧ b.length ≤ limits.length := by
    simp only [groupText, Limits.deepened, List.length_cons, List.length_append] at hlength
    omega
  rw [outcome_of_admitted hlength hbalanced, resultAt_operation ha hb,
    outcome_of_admitted hsides.1 ha, outcome_of_admitted hsides.2 hb]

end Parse

namespace Expression

/-! ## Whole texts -/

@[simp] theorem stripped_append (a b : String) : stripped (a ++ b) = stripped a ++ stripped b := by
  unfold stripped Text.stripBlank
  rw [String.toList_append, List.filter_append]

@[simp] theorem stripped_symbol (op : Operator) : stripped op.symbol = [op.char] := by
  cases op <;> decide

def operationText (op : Operator) (a b : String) : String :=
  "(" ++ a ++ ")" ++ op.symbol ++ "(" ++ b ++ ")"

def logarithmText (a : String) : String :=
  "log(" ++ a ++ ")"

theorem stripped_operationText (op : Operator) (a b : String) :
    stripped (operationText op a b) =
      groupText (stripped a) ++ op.char :: groupText (stripped b) := by
  unfold operationText groupText
  simp [show stripped "(" = ['('] by decide, show stripped ")" = [')'] by decide]

theorem stripped_logarithmText (a : String) :
    stripped (logarithmText a) = logText (stripped a) := by
  unfold logarithmText logText groupText
  simp [show stripped "log(" = ['l', 'o', 'g', '('] by decide, show stripped ")" = [')'] by decide]

variable {limits : Limits} {a b : String}

theorem ofText_operationText (op : Operator) (ha : Balanced 0 (stripped a))
    (hb : Balanced 0 (stripped b))
    (hlength : (stripped (operationText op a b)).length ≤ limits.length) :
    ofText (operationText op a b) limits.deepened =
      match ofText a limits, ofText b limits with
      | .ok e, .ok f =>
        .ok (ofTree (.binary op (.unary .group e.toTree) (.unary .group f.toTree)))
      | .ok _, .error failure | .error failure, _ =>
        refused (operationText op a b) (failure.reason.within limits.deepened.depth) := by
  have houtcome := stripped_operationText op a b ▸ hlength
  rw [ofText_eq, stripped_operationText, outcome_operation ha hb op houtcome, ofText_eq, ofText_eq]
  rcases outcome limits (stripped a) with reason | t
  · rfl
  · rcases outcome limits (stripped b) with reason | u
    · rfl
    · show Except.ok _ = Except.ok _
      rw [toTree_ofTree, toTree_ofTree]

theorem ofText_logarithmText (ha : Balanced 0 (stripped a))
    (hlength : (stripped (logarithmText a)).length ≤ limits.length) :
    ofText (logarithmText a) limits.deepened =
      match ofText a limits with
      | .ok e => .ok (ofTree (.unary .log e.toTree))
      | .error failure =>
        refused (logarithmText a) (failure.reason.within limits.deepened.depth) := by
  have houtcome := stripped_logarithmText a ▸ hlength
  rw [ofText_eq, stripped_logarithmText, outcome_logText ha houtcome, ofText_eq]
  rcases outcome limits (stripped a) with reason | t
  · rfl
  · show Except.ok _ = Except.ok _
    rw [toTree_ofTree]

/-- A text with balanced parentheses and another such text, each in parentheses and with an operator
between them, are an expression under limits which allow one more level exactly if both are
expressions, and its tree has the operator over the groups of their trees; likewise the logarithm of
the text. Otherwise such a text is refused for the reason of the first part which is, and if that is
too deep, the limit which is told is the greater one. -/
theorem ofText_nested (limits : Limits) (ha : Balanced 0 (stripped a)) :
    (∀ (op : Operator) (b : String), Balanced 0 (stripped b) →
      (stripped (operationText op a b)).length ≤ limits.length →
        ofText (operationText op a b) limits.deepened =
          match ofText a limits, ofText b limits with
          | .ok e, .ok f =>
            .ok (ofTree (.binary op (.unary .group e.toTree) (.unary .group f.toTree)))
          | .ok _, .error failure | .error failure, _ =>
            refused (operationText op a b) (failure.reason.within (limits.depth + 1))) ∧
    ((stripped (logarithmText a)).length ≤ limits.length →
      ofText (logarithmText a) limits.deepened =
        match ofText a limits with
        | .ok e => .ok (ofTree (.unary .log e.toTree))
        | .error failure =>
          refused (logarithmText a) (failure.reason.within (limits.depth + 1))) :=
  ⟨fun op _ hb => ofText_operationText op ha hb, ofText_logarithmText ha⟩

theorem ofText_nested_word :
    ofText (operationText .subtract " 1e" "((x))") { depth := 2 } =
        refused "( 1e)-(((x)))" (.tooDeep 2) ∧
      ofText (logarithmText " 1e") { depth := 2 } =
        .ok (ofTree (.unary .log (.leaf (.unknown "1e")))) := by
  have hleft : ofText " 1e" { depth := 1 } = .ok (ofTree (.leaf (.unknown "1e"))) := by
    decide +kernel
  have hright : ofText "((x))" { depth := 1 } = refused "((x))" (.tooDeep 1) := by decide +kernel
  have ha : Balanced 0 (stripped " 1e") := balanced_iff.1 (by decide +kernel)
  have hb : Balanced 0 (stripped "((x))") := balanced_iff.1 (by decide +kernel)
  obtain ⟨hoperation, hlog⟩ := ofText_nested { depth := 1 } ha
  constructor
  · refine (hoperation .subtract "((x))" hb (by decide +kernel)).trans ?_
    rw [hleft, hright]
    decide +kernel
  · refine (hlog (by decide +kernel)).trans ?_
    rw [hleft]
    dsimp only
    rw [toTree_ofTree]

end Expression

end Ordinate

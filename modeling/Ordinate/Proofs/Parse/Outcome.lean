import Mathlib.Data.List.Infix
import Mathlib.Order.Bounds.Defs
import Ordinate.Proofs.Parse.Written

/-!
# Outcomes of a parse

* `Parse.deepest` : how many parentheses of a text are open at once, at most;
* `Parse.Unclosed` : a parenthesis of the text has no partner;
* `Parse.Reads.groupDepth_eq` : a tree has as many groups around one another as its text has
  parentheses;
* `Parse.resultAt_of_deepest_le` : limits which are not reached do not matter;
* `Expression.ofText_outcome` : which texts are refused, and why.
-/

namespace Ordinate

open Parse

namespace Parse

/-! ## Depth of parentheses -/

/-- How many parentheses of the text are open at once, at most. -/
def deepest : List Char → Nat
  | [] => 0
  | c :: text => (rise c + deepest text).toNat

theorem nesting_eq_count (text : List Char) :
    nesting text = text.count '(' - text.count ')' := by
  induction text with
  | nil => rfl
  | cons c text ih =>
    rw [nesting_cons, ih, rise]
    by_cases ho : c = '('
    · subst ho
      simp
      omega
    by_cases hc : c = ')'
    · subst hc
      simp
      omega
    · simp [ho, hc]

theorem nesting_le_deepest (text : List Char) : nesting text ≤ deepest text := by
  induction text with
  | nil => simp
  | cons c text ih =>
    rw [nesting_cons, deepest]
    omega

theorem deepest_append (a b : List Char) :
    deepest (a ++ b) = max (deepest a) (nesting a + deepest b).toNat := by
  induction a with
  | nil => simp [deepest]
  | cons c a ih =>
    rw [List.cons_append, deepest, ih, deepest, nesting_cons]
    omega

theorem isGreatest_deepest (text : List Char) :
    IsGreatest {n | ∃ start, start <+: text ∧ nesting start = n} (deepest text) := by
  constructor
  · induction text with
    | nil => exact ⟨[], List.prefix_rfl, rfl⟩
    | cons c text ih =>
      obtain ⟨start, hstart, hnesting⟩ := ih
      by_cases h : rise c + deepest text ≤ 0
      · refine ⟨[], List.nil_prefix, ?_⟩
        rw [nesting_nil, deepest]
        omega
      · refine ⟨c :: start, List.cons_prefix_cons.2 ⟨rfl, hstart⟩, ?_⟩
        rw [nesting_cons, hnesting, deepest]
        omega
  · rintro _ ⟨start, ⟨rest, rfl⟩, rfl⟩
    have := nesting_le_deepest start
    rw [deepest_append]
    omega

theorem deepest_eq_zero {text : List Char} (h : ∀ c ∈ text, c ≠ '(' ∧ c ≠ ')') :
    deepest text = 0 := by
  induction text with
  | nil => rfl
  | cons c text ih =>
    obtain ⟨hc, htext⟩ := List.forall_mem_cons.1 h
    rw [deepest, rise_eq_zero hc, ih htext]
    rfl

theorem deepest_group (text : List Char) : deepest ('(' :: (text ++ [')'])) = 1 + deepest text := by
  have := nesting_le_deepest text
  rw [deepest, deepest_append, show rise '(' = 1 from rfl, show deepest [')'] = 0 from rfl]
  omega

theorem deepest_log (text : List Char) :
    deepest ('l' :: 'o' :: 'g' :: '(' :: (text ++ [')'])) = 1 + deepest text := by
  show deepest (['l', 'o', 'g'] ++ _) = _
  rw [deepest_append, deepest_group, show deepest ['l', 'o', 'g'] = 0 from rfl,
    show nesting ['l', 'o', 'g'] = 0 from rfl]
  omega

theorem deepest_of_splitFrom? {p found : Precedence} {text : List Char} {s : Split}
    (h : p.splitFrom? text = some (found, s)) :
    deepest text = max (deepest s.left) (deepest s.right) := by
  obtain ⟨rfl, -, -, hnesting, -⟩ := Precedence.of_splitFrom? h
  rw [Split.text, deepest_append, deepest, rise_char, hnesting]
  omega

/-! ## Unclosed parentheses -/

/-- The text closes a parenthesis which is not open, or leaves one open. -/
def Unclosed (text : List Char) : Prop :=
  (∃ start, start <+: text ∧ start.count '(' < start.count ')') ∨ text.count ')' < text.count '('

theorem Balanced.neg_le_nesting {n : Nat} {text start : List Char} (h : Balanced n text)
    (hstart : start <+: text) : -n ≤ nesting start := by
  induction h generalizing start with
  | nil =>
    rw [List.prefix_nil.1 hstart, nesting_nil]
    omega
  | opening _ ih =>
    rcases List.prefix_cons_iff.1 hstart with rfl | ⟨rest, rfl, hrest⟩
    · rw [nesting_nil]
      omega
    · have := ih hrest
      rw [nesting_cons, show rise '(' = 1 from rfl]
      omega
  | closing _ ih =>
    rcases List.prefix_cons_iff.1 hstart with rfl | ⟨rest, rfl, hrest⟩
    · rw [nesting_nil]
      omega
    · have := ih hrest
      rw [nesting_cons, show rise ')' = -1 from rfl]
      omega
  | other ne _ ih =>
    rcases List.prefix_cons_iff.1 hstart with rfl | ⟨rest, rfl, hrest⟩
    · rw [nesting_nil]
      omega
    · have := ih hrest
      rw [nesting_cons, rise_eq_zero ne]
      omega

theorem balanced_of_nesting {n : Nat} {text : List Char}
    (hstart : ∀ start, start <+: text → -n ≤ nesting start) (h : nesting text = -n) :
    Balanced n text := by
  induction text generalizing n with
  | nil =>
    obtain rfl : n = 0 := by
      rw [nesting_nil] at h
      omega
    exact .nil
  | cons c text ih =>
    have hbehind : ∀ start, start <+: text → -n ≤ rise c + nesting start := fun start hs =>
      hstart (c :: start) (List.cons_prefix_cons.2 ⟨rfl, hs⟩)
    rw [nesting_cons] at h
    by_cases ho : c = '('
    · subst ho
      rw [show rise '(' = 1 from rfl] at h hbehind
      refine .opening (ih (fun start hs => ?_) (by omega))
      have := hbehind start hs
      omega
    by_cases hc : c = ')'
    · subst hc
      rw [show rise ')' = -1 from rfl] at h hbehind
      have hpos := hbehind [] List.nil_prefix
      rw [nesting_nil] at hpos
      obtain ⟨m, rfl⟩ : ∃ m, n = m + 1 := ⟨n - 1, by omega⟩
      refine .closing (ih (fun start hs => ?_) (by omega))
      have := hbehind start hs
      omega
    · rw [rise_eq_zero ⟨ho, hc⟩] at h hbehind
      refine .other ⟨ho, hc⟩ (ih (fun start hs => ?_) (by omega))
      have := hbehind start hs
      omega

theorem unclosed_iff {text : List Char} : Unclosed text ↔ ¬Balanced 0 text := by
  constructor
  · rintro (⟨start, hstart, hcount⟩ | hcount) h
    · have := h.neg_le_nesting hstart
      rw [nesting_eq_count] at this
      omega
    · have := h.nesting_eq
      rw [nesting_eq_count] at this
      omega
  · intro h
    by_contra hnot
    rw [Unclosed, not_or, not_exists] at hnot
    obtain ⟨hstart, hend⟩ := hnot
    refine h (balanced_of_nesting (fun start hs => ?_) ?_)
    · have := not_and.1 (hstart start) hs
      rw [nesting_eq_count]
      omega
    · have := not_and.1 (hstart text) List.prefix_rfl
      rw [nesting_eq_count]
      omega

theorem not_unclosed_iff {text : List Char} : ¬Unclosed text ↔ Balanced 0 text := by
  rw [unclosed_iff, not_not]

/-! ## Reasons -/

section Reasons

variable {limits : Limits}

/-- Neither the limits nor the depth matter for an operand which is neither a logarithm nor a
group. -/
theorem exists_resultAt_leaf {text : List Char} (hl : logArgument? text = none)
    (hg : groupInside? text = none) :
    ∃ result : Except Reason Tree,
      (∀ limits depth, resultAt depth (attempt limits none text) = result) ∧
        ∀ reason, result = .error reason → reason = .noRule := by
  by_cases hp : text.head? = some '('
  · refine ⟨.error .noRule, fun limits depth => ?_, fun reason h => (Except.error.inj h).symm⟩
    rw [attempt, operand_of_head?_eq hl hp hg]
    rfl
  · refine ⟨resultAt 0 (Parse.leaf text), fun limits depth => ?_, fun reason h => ?_⟩
    · rw [attempt, operand_of_head?_ne hl hp]
      unfold resultAt Parse.leaf Maker.readLeaf
      cases Literal.read text with
      | some v => rfl
      | none =>
        dsimp only
        split_ifs <;> rfl
    · unfold Parse.leaf Maker.readLeaf at h
      split at h
      · cases h
      · dsimp only at h
        split_ifs at h <;> cases h
        rfl

theorem reason_of_resultAt {depth : Nat} {p : Option Precedence} {text : List Char}
    {reason : Reason} (h : resultAt depth (attempt limits p text) = .error reason) :
    reason = .noRule ∨ reason = .tooDeep limits.depth := by
  induction depth, p, text using attempt_induction with
  | split depth p found text s hs ihl ihr =>
    rw [resultAt_of_splitFrom?_eq_some hs] at h
    split at h
    · exact .inl (Except.error.inj h).symm
    · rcases bind_eq_error_iff.1 h with h | ⟨left, -, h⟩
      · exact ihl h
      rcases bind_eq_error_iff.1 h with h | ⟨right, -, h⟩
      · exact ihr h
      · cases h
  | whole depth p text hs ih =>
    rw [resultAt_of_splitFrom?_eq_none hs] at h
    exact ih h
  | log depth text inside hl ih =>
    rw [resultAt_of_logArgument? hl] at h
    split at h
    · exact .inr (Except.error.inj h).symm
    · exact ih (map_eq_error_iff.1 h)
  | group depth text inside hl hg ih =>
    rw [resultAt_of_groupInside? hl hg] at h
    split at h
    · exact .inr (Except.error.inj h).symm
    · exact ih (map_eq_error_iff.1 h)
  | leaf depth text hl hg =>
    obtain ⟨result, hresult, hreason⟩ := exists_resultAt_leaf hl hg
    exact .inl (hreason reason ((hresult limits depth).symm.trans h))

/-- Limits of the depth which a text does not reach do not matter. -/
theorem resultAt_of_deepest_le {limits' : Limits} {depth : Nat} {p : Option Precedence}
    {text : List Char} (h : depth + deepest text ≤ limits.depth)
    (h' : depth + deepest text ≤ limits'.depth) :
    resultAt depth (attempt limits p text) = resultAt depth (attempt limits' p text) := by
  induction depth, p, text using attempt_induction with
  | split depth p found text s hs ihl ihr =>
    rw [deepest_of_splitFrom? hs] at h h'
    rw [resultAt_of_splitFrom?_eq_some hs, resultAt_of_splitFrom?_eq_some hs,
      ihl (by omega) (by omega), ihr (by omega) (by omega)]
  | whole depth p text hs ih =>
    rw [resultAt_of_splitFrom?_eq_none hs, resultAt_of_splitFrom?_eq_none hs, ih h h']
  | log depth text inside hl ih =>
    rw [text_of_logArgument? hl, deepest_log] at h h'
    rw [resultAt_of_logArgument? hl, resultAt_of_logArgument? hl, if_neg (by omega),
      if_neg (by omega), ih (by omega) (by omega)]
  | group depth text inside hl hg ih =>
    rw [text_of_groupInside? hg, deepest_group] at h h'
    rw [resultAt_of_groupInside? hl hg, resultAt_of_groupInside? hl hg, if_neg (by omega),
      if_neg (by omega), ih (by omega) (by omega)]
  | leaf depth text hl hg =>
    obtain ⟨result, hresult, -⟩ := exists_resultAt_leaf hl hg
    rw [hresult, hresult]

/-- Within the limit of the depth the rules fail only because none of them fits. -/
theorem reason_of_deepest_le {depth : Nat} {p : Option Precedence} {text : List Char}
    {reason : Reason} (hdepth : depth + deepest text ≤ limits.depth)
    (h : resultAt depth (attempt limits p text) = .error reason) : reason = .noRule := by
  have hmore : depth + deepest text ≤ ({ limits with depth := limits.depth + 1 } : Limits).depth :=
    hdepth.trans (Nat.le_succ _)
  have hagain := (resultAt_of_deepest_le hdepth hmore).symm.trans h
  rcases reason_of_resultAt h with rfl | rfl
  · rfl
  · rcases reason_of_resultAt hagain with h | h
    · exact h
    · exact absurd (Reason.tooDeep.inj h) (Nat.ne_of_lt (Nat.lt_succ_self limits.depth))

/-! ## Depth of trees -/

/-- A tree has as many groups and logarithms around one another as its text has parentheses. -/
theorem Reads.groupDepth_eq {depth : Nat} {p : Option Precedence} {text : List Char} {t : Tree}
    (h : Reads limits depth p text t) : t.groupDepth = deepest text := by
  induction h with
  | split split _ _ _ _ ihl ihr =>
    rw [Tree.groupDepth_binary, ihl, ihr, deepest_of_splitFrom? split]
  | whole _ _ ih => exact ih
  | log log _ _ ih =>
    rw [Tree.groupDepth_unary (.inl rfl), ih, text_of_logArgument? log, deepest_log]
  | group _ group _ _ ih =>
    rw [Tree.groupDepth_unary (.inr rfl), ih, text_of_groupInside? group, deepest_group]
  | leaf _ _ leaf =>
    obtain ⟨label, rfl, hlabel⟩ := resultAt_leaf_eq_ok_iff.1 leaf
    cases hlabel with
    | literal read =>
      rw [deepest_eq_zero (Literal.ne_paren_of_read read)]
      rfl
    | var => rfl
    | unknown _ _ word =>
      rw [deepest_eq_zero (ne_paren_of_isWord word)]
      rfl

/-- A text which reads as a tree stays within the limit of the depth. -/
theorem Reads.add_groupDepth_le {depth : Nat} {p : Option Precedence} {text : List Char} {t : Tree}
    (h : Reads limits depth p text t) (hdepth : depth ≤ limits.depth) :
    depth + t.groupDepth ≤ limits.depth := by
  induction h with
  | split _ _ _ _ _ ihl ihr =>
    have := ihl hdepth
    have := ihr hdepth
    rw [Tree.groupDepth_binary]
    omega
  | whole _ _ ih => exact ih hdepth
  | log _ depth_lt _ ih =>
    have := ih depth_lt
    rw [Tree.groupDepth_unary (.inl rfl)]
    omega
  | group _ _ depth_lt _ ih =>
    have := ih depth_lt
    rw [Tree.groupDepth_unary (.inr rfl)]
    omega
  | leaf _ _ leaf =>
    obtain ⟨label, rfl, hlabel⟩ := resultAt_leaf_eq_ok_iff.1 leaf
    cases hlabel <;> exact hdepth

/-! ## Whole texts -/

/-- The tree of a text without blank characters, or the reason why it has none. -/
def outcome (limits : Limits) (text : List Char) : Except Reason Tree := do
  limits.admit text
  resultAt 0 (attempt limits (some .sum) text)

def refused (text : String) (reason : Reason) : Except Failure Expression :=
  .error ⟨String.ofList (stripped text), reason⟩

theorem outcome_of_admitted {text : List Char} (hlength : text.length ≤ limits.length)
    (hbalanced : Balanced 0 text) :
    outcome limits text = resultAt 0 (attempt limits (some .sum) text) := by
  rw [outcome, admit_eq_ok_iff.2 ⟨hlength, balanced_iff.2 hbalanced⟩]
  rfl

theorem outcome_of_too_long {text : List Char} (h : limits.length < text.length) :
    outcome limits text = .error (.tooLong limits.length) := by
  rw [outcome, Limits.admit, if_pos h]
  rfl

theorem outcome_of_unclosed {text : List Char} (hlength : text.length ≤ limits.length)
    (h : Unclosed text) : outcome limits text = .error .unbalanced := by
  have hnot : ¬balanced 0 text = true := fun hb => unclosed_iff.1 h (balanced_iff.1 hb)
  rw [outcome, Limits.admit, if_neg (Nat.not_lt.2 hlength), if_neg hnot]
  rfl

theorem reason_of_outcome {text : List Char} (hlength : text.length ≤ limits.length)
    (hclosed : ¬Unclosed text) {reason : Reason} (h : outcome limits text = .error reason) :
    reason = .noRule ∨ reason = .tooDeep limits.depth := by
  rw [outcome_of_admitted hlength (not_unclosed_iff.1 hclosed)] at h
  exact reason_of_resultAt h

theorem outcome_eq_tooLong_iff {text : List Char} :
    outcome limits text = .error (.tooLong limits.length) ↔ limits.length < text.length := by
  refine ⟨fun h => ?_, outcome_of_too_long⟩
  by_contra hlength
  rw [Nat.not_lt] at hlength
  by_cases hclosed : Unclosed text
  · cases (outcome_of_unclosed hlength hclosed).symm.trans h
  · rcases reason_of_outcome hlength hclosed h with h | h <;> cases h

theorem outcome_eq_unbalanced_iff {text : List Char} (hlength : text.length ≤ limits.length) :
    outcome limits text = .error .unbalanced ↔ Unclosed text := by
  refine ⟨fun h => ?_, outcome_of_unclosed hlength⟩
  by_contra hclosed
  rcases reason_of_outcome hlength hclosed h with h | h <;> cases h

theorem outcome_of_deepest_le {text : List Char} (hlength : text.length ≤ limits.length)
    (hclosed : ¬Unclosed text) (hdepth : deepest text ≤ limits.depth) :
    ((∃ t, outcome limits text = .ok t) ∨ outcome limits text = .error .noRule) ∧
      ∀ greater : Limits, limits.length ≤ greater.length → limits.depth ≤ greater.depth →
        outcome greater text = outcome limits text := by
  have hbalanced := not_unclosed_iff.1 hclosed
  have hdepth : 0 + deepest text ≤ limits.depth := by omega
  rw [outcome_of_admitted hlength hbalanced]
  constructor
  · cases h : resultAt 0 (attempt limits (some .sum) text) with
    | ok t => exact .inl ⟨t, rfl⟩
    | error reason =>
      rw [reason_of_deepest_le hdepth h]
      exact .inr rfl
  · intro greater hlength' hdepth'
    rw [outcome_of_admitted (hlength.trans hlength') hbalanced]
    exact resultAt_of_deepest_le (hdepth.trans hdepth') hdepth

theorem outcome_of_lt_deepest {text : List Char} (hlength : text.length ≤ limits.length)
    (hclosed : ¬Unclosed text) (hdepth : limits.depth < deepest text) :
    outcome limits text = .error (.tooDeep limits.depth) ∨
      outcome limits text = .error .noRule := by
  cases h : outcome limits text with
  | ok t =>
    rw [outcome_of_admitted hlength (not_unclosed_iff.1 hclosed)] at h
    have hreads : Reads limits 0 (some .sum) text t := reads_iff.2 h
    have := hreads.add_groupDepth_le (Nat.zero_le _)
    rw [hreads.groupDepth_eq] at this
    omega
  | error reason =>
    rcases reason_of_outcome hlength hclosed h with rfl | rfl
    · exact .inr rfl
    · exact .inl rfl

end Reasons

end Parse

namespace Expression

variable {limits : Limits} {text : String}

theorem ofText_eq :
    ofText text limits =
      match outcome limits (stripped text) with
      | .ok t => .ok (ofTree t)
      | .error reason => refused text reason := by
  unfold ofText outcome refused
  cases hadmit : limits.admit (stripped text) with
  | error reason =>
    rw [parse_of_admit_eq_error hadmit]
    rfl
  | ok =>
    rw [parse_of_admit_eq_ok hadmit]
    dsimp only [attempt]
    unfold resultAt
    rcases chain limits [] .sum (stripped text) {} with ⟨reason | t, s⟩ <;> rfl

theorem ofText_eq_refused_iff {reason : Reason} :
    ofText text limits = refused text reason ↔
      outcome limits (stripped text) = .error reason := by
  rw [ofText_eq]
  cases outcome limits (stripped text) with
  | ok t => exact ⟨nofun, nofun⟩
  | error reason' =>
    dsimp only [refused]
    rw [Except.error.injEq, Except.error.injEq, Failure.mk.injEq]
    exact and_iff_right rfl

theorem exists_ofText_eq_ok_iff :
    (∃ e, ofText text limits = .ok e) ↔ ∃ t, outcome limits (stripped text) = .ok t := by
  rw [ofText_eq]
  cases outcome limits (stripped text) with
  | ok t => exact ⟨fun _ => ⟨t, rfl⟩, fun _ => ⟨ofTree t, rfl⟩⟩
  | error reason => exact ⟨fun ⟨_, h⟩ => (nomatch h), fun ⟨_, h⟩ => nomatch h⟩

/-- A text, blank characters aside, is refused as too long exactly if it has more characters than
the limit. Otherwise it is refused as unbalanced exactly if a parenthesis of it has no partner.
Otherwise, if it is not deeper than the limit, it has a tree or no rule fits, and greater limits
change nothing; if it is deeper, it is refused as too deep or because no rule fits. A tree has as many
groups and logarithms around one another as its text has parentheses, which is the greatest number of
those open behind a start of the text, and each failure tells the text without its blank
characters. -/
theorem ofText_outcome (text : String) (limits : Limits) :
    (ofText text limits = refused text (.tooLong limits.length) ↔
      limits.length < (stripped text).length) ∧
    ((stripped text).length ≤ limits.length →
      (ofText text limits = refused text .unbalanced ↔ Unclosed (stripped text)) ∧
      (¬Unclosed (stripped text) →
        (deepest (stripped text) ≤ limits.depth →
          ((∃ e, ofText text limits = .ok e) ∨ ofText text limits = refused text .noRule) ∧
          ∀ greater : Limits, limits.length ≤ greater.length → limits.depth ≤ greater.depth →
            ofText text greater = ofText text limits) ∧
        (limits.depth < deepest (stripped text) →
          ofText text limits = refused text (.tooDeep limits.depth) ∨
            ofText text limits = refused text .noRule))) ∧
    (∀ e, ofText text limits = .ok e → deepest (stripped text) = e.toTree.groupDepth) ∧
    IsGreatest {n | ∃ start, start <+: stripped text ∧ nesting start = n}
      (deepest (stripped text)) ∧
    ∀ failure, ofText text limits = .error failure →
      failure.text = String.ofList (stripped text) := by
  refine ⟨?_, fun hlength => ⟨?_, fun hclosed => ⟨fun hdepth => ?_, fun hdepth => ?_⟩⟩, ?_,
    isGreatest_deepest _, ?_⟩
  · rw [ofText_eq_refused_iff, outcome_eq_tooLong_iff]
  · rw [ofText_eq_refused_iff, outcome_eq_unbalanced_iff hlength]
  · obtain ⟨hresult, hgreater⟩ := outcome_of_deepest_le hlength hclosed hdepth
    rw [exists_ofText_eq_ok_iff, ofText_eq_refused_iff]
    refine ⟨hresult, fun greater hlength' hdepth' => ?_⟩
    rw [ofText_eq, ofText_eq, hgreater greater hlength' hdepth']
  · rw [ofText_eq_refused_iff, ofText_eq_refused_iff]
    exact outcome_of_lt_deepest hlength hclosed hdepth
  · intro e h
    obtain ⟨-, -, t, hreads, rfl⟩ := ofText_eq_ok_iff.1 h
    rw [toTree_ofTree]
    exact hreads.groupDepth_eq.symm
  · intro failure h
    rw [ofText_eq] at h
    split at h
    · cases h
    · exact congrArg Failure.text (Except.error.inj h).symm

theorem ofText_outcome_nested :
    deepest (stripped "log( (x) )") = 2 ∧
      (ofText "log( (x) )" { depth := 1 } = refused "log( (x) )" (.tooDeep 1) ∨
        ofText "log( (x) )" { depth := 1 } = refused "log( (x) )" .noRule) ∧
      ofText "log( (x) )" { depth := 2 } = .ok (ofTree (.unary .log (.unary .group (.leaf .var)))) ∧
      ofText "log( (x) )" = ofText "log( (x) )" { depth := 2 } ∧
      (Tree.unary .log (.unary .group (.leaf .var))).groupDepth = 2 := by
  have hdeepest : deepest (stripped "log( (x) )") = 2 := by decide +kernel
  have hclosed : ¬Unclosed (stripped "log( (x) )") :=
    not_unclosed_iff.2 (balanced_iff.1 (by decide +kernel))
  have htext : ofText "log( (x) )" { depth := 2 } =
      .ok (ofTree (.unary .log (.unary .group (.leaf .var)))) := by
    decide +kernel
  obtain ⟨-, hshort, -⟩ := ofText_outcome "log( (x) )" { depth := 1 }
  obtain ⟨-, hadmitted⟩ := hshort (by decide +kernel)
  obtain ⟨-, hshort', hdepth, -⟩ := ofText_outcome "log( (x) )" { depth := 2 }
  obtain ⟨-, hgreater⟩ := ((hshort' (by decide +kernel)).2 hclosed).1 hdeepest.le
  have htree := hdepth _ htext
  rw [toTree_ofTree, hdeepest] at htree
  exact ⟨hdeepest, (hadmitted hclosed).2 (by rw [hdeepest]; decide), htext,
    hgreater {} (by decide) (by decide), htree.symm⟩

end Expression

end Ordinate

import Ordinate.Proofs.Expression.Text
import Ordinate.Proofs.Literal
import Ordinate.Proofs.Parse.Cut

/-!
# Trees written as texts

* `Tree.Grammatical` : the trees which the grammar can write without further parentheses;
* `Tree.Written` : a tree and a text which writes it, with its literals in any spelling;
* `Tree.groupDepth` : how many groups and logarithms of a tree are around one another;
* `Parse.WellFormed` : what the texts of grammatical trees have in common;
* `Parse.reads_of_written` : a text which writes a grammatical tree reads as it;
* `Expression.ofText_of_written` : a parser whose limits admit the text gives the tree back.
-/

namespace Ordinate

open Parse

/-! ## Trees and their texts -/

namespace Tree

/-- An operator at the root of the tree binds at least as tightly as `p`. -/
def AtLeast (p : Precedence) (t : Tree) : Prop :=
  ∀ op, t.label = .binary op → p.rank ≤ op.precedence.rank

/-- The trees which the grammar can write: left of an operator stands what binds tighter, and right
of it what binds at least as tightly. -/
inductive Grammatical : Tree → Prop
  | var : Grammatical (leaf .var)
  | literal (v : Float) : Grammatical (leaf (.ofFloat v))
  | log {t : Tree} (operand : Grammatical t) : Grammatical (unary .log t)
  | group {t : Tree} (operand : Grammatical t) : Grammatical (unary .group t)
  | binary {op : Operator} {t u : Tree} (tighter : t.Tighter op.precedence)
      (at_least : u.AtLeast op.precedence) (left : Grammatical t) (right : Grammatical u) :
      Grammatical (binary op t u)

/-- The text writes the tree. A literal may be spelt by any text which denotes its value and does
not start with a plus. -/
inductive Written : Tree → List Char → Prop
  | var : Written (leaf .var) ['x']
  | literal {text : List Char} {v : Float} {name : String} (read : Literal.read text = some v)
      (spell : Literal.spell v = name) (plus : text.head? ≠ some '+') :
      Written (leaf (.literal name)) text
  | log {t : Tree} {text : List Char} (operand : Written t text) :
      Written (unary .log t) ('l' :: 'o' :: 'g' :: '(' :: (text ++ [')']))
  | group {t : Tree} {text : List Char} (operand : Written t text) :
      Written (unary .group t) ('(' :: (text ++ [')']))
  | binary {op : Operator} {t u : Tree} {a b : List Char} (left : Written t a)
      (right : Written u b) : Written (binary op t u) (a ++ op.char :: b)

mutual

/-- How many groups and logarithms of the tree are around one another. -/
def groupDepth : Tree → Nat
  | node label children =>
    (if label = .log ∨ label = .group then 1 else 0) + groupDepthList children

def groupDepthList : List Tree → Nat
  | [] => 0
  | t :: ts => max t.groupDepth (groupDepthList ts)

end

theorem groupDepth_unary {label : Label} (h : label = .log ∨ label = .group) (t : Tree) :
    (unary label t).groupDepth = 1 + t.groupDepth := by
  rw [unary, groupDepth, if_pos h, groupDepthList, groupDepthList, Nat.max_zero]

theorem groupDepth_binary (op : Operator) (t u : Tree) :
    (binary op t u).groupDepth = max t.groupDepth u.groupDepth := by
  rw [binary, groupDepth, if_neg (by simp), groupDepthList, groupDepthList, groupDepthList,
    Nat.max_zero, Nat.zero_add]

end Tree

namespace Parse

variable {limits : Limits}

theorem logArgument?_eq_none {text : List Char} (h : text.head? ≠ some 'l') :
    logArgument? text = none := by
  unfold logArgument?
  split
  · exact absurd rfl h
  · rfl

namespace Precedence

/-- Inside of a group a scan finds nothing. -/
theorem scan_of_balanced {p : Precedence} {n : Nat} {text : List Char} (h : Balanced n text)
    (before : List Char) : p.scan (n + 1) before text = none := by
  induction h generalizing before with
  | nil => rfl
  | opening _ ih =>
    rw [scan_cons_of_none (if_neg (by omega)), show rise '(' = 1 from rfl]
    exact ih _
  | @closing n rest _ ih =>
    rw [scan_cons_of_none (if_neg (by omega)), show rise ')' = -1 from rfl,
      Int.add_neg_cancel_right]
    exact ih _
  | other ne _ ih =>
    rw [scan_cons_of_none (if_neg (by omega)), rise_eq_zero ne, Int.add_zero]
    exact ih _

theorem scan_group {text : List Char} (h : Balanced 0 text) (p : Precedence)
    (before : List Char) : p.scan 0 before ('(' :: (text ++ [')'])) = none := by
  have hopen : p.splitAt? 0 before '(' = none := by cases p <;> rfl
  have hinside : p.scan 1 ('(' :: before) text = none := scan_of_balanced h _
  rw [scan_cons_of_none hopen]
  exact (scan_append_of_none hinside _).trans
    (scan_eq_none_of_forall (forall_mem_of_all (by decide)) p _ _)

theorem split?_log {text : List Char} (h : Balanced 0 text) (p : Precedence) :
    p.split? ('l' :: 'o' :: 'g' :: '(' :: (text ++ [')'])) = none := by
  have hlog : p.scan 0 [] ['l', 'o', 'g'] = none :=
    scan_eq_none_of_forall (forall_mem_of_all (by decide)) p 0 []
  exact (scan_append_of_none hlog _).trans (scan_group h p _)

end Precedence

/-! ## Texts of trees -/

/-- What all texts have in common which write a grammatical tree: an operator can stand behind such
a text, and it splits at none which is looser than its tree. -/
structure WellFormed (t : Tree) (text : List Char) : Prop where
  balanced : Balanced 0 text
  closes : Closes text
  not_blank : ∀ c ∈ text, Text.isBlank c = false
  split?_eq_none : ∀ p : Precedence, t.Tighter p → p.split? text = none

theorem closes_group (a : List Char) : Closes (a ++ [')']) :=
  ⟨a, ')', rfl, by decide⟩

theorem WellFormed.group {t : Tree} {text : List Char} (h : WellFormed t text) :
    WellFormed (.unary .group t) ('(' :: (text ++ [')'])) where
  balanced := h.balanced.group
  closes := closes_group ('(' :: text)
  not_blank := by
    rw [List.forall_mem_cons, List.forall_mem_append]
    exact ⟨by decide, h.not_blank, forall_mem_of_all (by decide)⟩
  split?_eq_none p _ := Precedence.scan_group h.balanced p []

theorem WellFormed.log {t : Tree} {text : List Char} (h : WellFormed t text) :
    WellFormed (.unary .log t) ('l' :: 'o' :: 'g' :: '(' :: (text ++ [')'])) where
  balanced := .other (by decide) (.other (by decide) (.other (by decide) h.balanced.group))
  closes := closes_group ('l' :: 'o' :: 'g' :: '(' :: text)
  not_blank := by
    rw [List.forall_mem_cons, List.forall_mem_cons, List.forall_mem_cons]
    exact ⟨by decide, by decide, by decide, h.group.not_blank⟩
  split?_eq_none p _ := Precedence.split?_log h.balanced p

theorem wellFormed_literal {text : List Char} {v : Float} (h : Literal.read text = some v)
    (hplus : text.head? ≠ some '+') (name : String) :
    WellFormed (.leaf (.literal name)) text where
  balanced := Literal.balanced_of_read h
  closes := Literal.closes h
  not_blank := Literal.isBlank_of_read h
  split?_eq_none p _ := Literal.split?_eq_none h hplus p

theorem wellFormed_var : WellFormed (.leaf .var) ['x'] where
  balanced := .other (by decide) .nil
  closes := ⟨[], 'x', rfl, by decide⟩
  not_blank := forall_mem_of_all (by decide)
  split?_eq_none p _ := by cases p <;> rfl

theorem WellFormed.binary {op : Operator} {t u : Tree} {a b : List Char}
    (ht : t.Tighter op.precedence) (hu : u.AtLeast op.precedence) (ha : WellFormed t a)
    (hb : WellFormed u b) : WellFormed (.binary op t u) (a ++ op.char :: b) where
  balanced := ha.balanced.append (Balanced.char_cons_iff.2 hb.balanced)
  closes := (hb.closes.append [op.char]).append a
  not_blank := by
    rw [List.forall_mem_append, List.forall_mem_cons]
    refine ⟨ha.not_blank, ?_, hb.not_blank⟩
    cases op <;> decide
  split?_eq_none p hp := by
    have hlt : p.rank < op.precedence.rank := hp op rfl
    have hne : op.precedence ≠ p := fun h => Nat.lt_irrefl _ (h ▸ hlt)
    rw [Precedence.split?_append_eq_none_iff ha.balanced.nesting_eq]
    refine ⟨?_, Precedence.operatorAt?_of_precedence_ne hne _, ?_⟩
    · exact ha.split?_eq_none p fun own hown => hlt.trans (ht own hown)
    · exact hb.split?_eq_none p fun own hown => hlt.trans_le (hu own hown)

theorem wellFormed_of_written {t : Tree} {text : List Char} (ht : t.Grammatical)
    (h : t.Written text) : WellFormed t text := by
  induction h with
  | var => exact wellFormed_var
  | literal read _ plus => exact wellFormed_literal read plus _
  | log _ ih =>
    cases ht with
    | log ht => exact (ih ht).log
  | group _ ih =>
    cases ht with
    | group ht => exact (ih ht).group
  | binary _ _ ihl ihr =>
    cases ht with
    | binary tighter at_least left right =>
      exact WellFormed.binary tighter at_least (ihl left) (ihr right)

/-! ## Readings of written trees -/

/-- A text without splits reads as an operand from every precedence on. -/
theorem Reads.of_operand {depth : Nat} {text : List Char} {t : Tree}
    (h : Reads limits depth none text t) (hsplit : ∀ q : Precedence, q.split? text = none)
    (p : Option Precedence) : Reads limits depth p text t := by
  cases p with
  | none => exact h
  | some p => exact .whole (Precedence.splitFrom?_eq_none_iff.2 fun q _ => hsplit q) h

theorem reads_var (depth : Nat) : Reads limits depth none ['x'] (.leaf .var) :=
  .leaf rfl (by decide) rfl

theorem reads_literal {text : List Char} {v : Float} (h : Literal.read text = some v)
    (depth : Nat) : Reads limits depth none text (.leaf (.ofFloat v)) := by
  have hchars : ∀ c ∈ Literal.chars, c ≠ 'l' ∧ c ≠ '(' := forall_mem_of_all (by decide)
  have hne : text.head? ≠ some 'l' ∧ text.head? ≠ some '(' := by
    cases htext : text.head? with
    | none => exact ⟨nofun, nofun⟩
    | some c =>
      have hc := hchars c (Literal.mem_chars h c (List.mem_of_mem_head? htext))
      exact ⟨fun heq => hc.1 (Option.some.inj heq), fun heq => hc.2 (Option.some.inj heq)⟩
  refine .leaf (logArgument?_eq_none hne.1) hne.2 ?_
  unfold leaf Maker.readLeaf
  rw [h]
  rfl

/-- A text which writes a grammatical tree reads as it, from any precedence on which is not tighter
than the tree. -/
theorem reads_of_written {t : Tree} {text : List Char} (ht : t.Grammatical) (h : t.Written text)
    {depth : Nat} {p : Option Precedence} (hdepth : depth + t.groupDepth ≤ limits.depth)
    (hp : ∀ op, t.label = .binary op → ∃ q ∈ p, q.rank ≤ op.precedence.rank) :
    Reads limits depth p text t := by
  induction h generalizing depth p with
  | var => exact (reads_var depth).of_operand (fun q => wellFormed_var.split?_eq_none q nofun) p
  | literal read spell plus =>
    subst spell
    exact (reads_literal read depth).of_operand (Literal.split?_eq_none read plus) p
  | @log t text h ih =>
    cases ht with
    | log ht =>
      have hw := wellFormed_of_written ht h
      have hlog : logArgument? ('l' :: 'o' :: 'g' :: '(' :: (text ++ [')'])) = some text :=
        groupInside?_group hw.balanced
      rw [Tree.groupDepth_unary (.inl rfl)] at hdepth
      refine Reads.of_operand (.log hlog (by omega) ?_) (Precedence.split?_log hw.balanced) p
      exact ih ht (by omega) fun op _ => ⟨.sum, rfl, Nat.zero_le _⟩
  | @group t text h ih =>
    cases ht with
    | group ht =>
      have hw := wellFormed_of_written ht h
      rw [Tree.groupDepth_unary (.inr rfl)] at hdepth
      refine Reads.of_operand (.group rfl (groupInside?_group hw.balanced) (by omega) ?_)
        (fun q => Precedence.scan_group hw.balanced q []) p
      exact ih ht (by omega) fun op _ => ⟨.sum, rfl, Nat.zero_le _⟩
  | @binary op t u a b ha hb iht ihu =>
    cases ht with
    | binary tighter at_least left right =>
      have hwa := wellFormed_of_written left ha
      have hwb := wellFormed_of_written right hb
      rw [Tree.groupDepth_binary] at hdepth
      obtain ⟨r, rfl, hr⟩ := hp op rfl
      have hfirst : r.splitFrom? (a ++ op.char :: b) = some (op.precedence, ⟨a, op, b⟩) := by
        refine hwa.closes.splitFrom? hwa.balanced.nesting_eq hr (fun q hq => ?_) fun q hq => ?_
        · exact hwa.split?_eq_none q fun own hown => hq.trans_lt (tighter own hown)
        · exact hwb.split?_eq_none q fun own hown => hq.trans_le (at_least own hown)
      refine .split hfirst hwa.closes.ne_nil hwb.closes.ne_nil ?_ ?_
      · exact iht left (by omega) fun own hown => Precedence.exists_tighter (tighter own hown)
      · exact ihu right (by omega) fun own _ => ⟨.sum, rfl, Nat.zero_le _⟩

end Parse

/-- A text writes the grammatical tree which it spells, if its length and the depth of the groups
are within the limits. -/
theorem Expression.ofText_of_written {t : Tree} {text : List Char} (ht : t.Grammatical)
    (h : t.Written text) {limits : Limits} (hlength : text.length ≤ limits.length)
    (hdepth : t.groupDepth ≤ limits.depth) :
    ofText (String.ofList text) limits = .ok (ofTree t) ∧ (ofTree t).toTree = t := by
  have hw := wellFormed_of_written ht h
  refine ⟨(ofText_ofList_eq_ok_iff hw.not_blank).2
    ⟨hlength, balanced_iff.2 hw.balanced, t, ?_, rfl⟩, toTree_ofTree t⟩
  exact reads_of_written ht h (by omega) fun op _ => ⟨.sum, rfl, Nat.zero_le _⟩

theorem Expression.ofText_of_written_difference :
    ofText (String.ofList ['x', '-', 'x', '*', '-', '1', 'e', '-', '3']) =
        .ok (ofTree (.binary .subtract (.leaf .var)
          (.binary .multiply (.leaf .var) (.leaf (.literal "-0.001"))))) ∧
      (ofTree (.binary .subtract (.leaf .var)
        (.binary .multiply (.leaf .var) (.leaf (.literal "-0.001"))))).toTree =
          .binary .subtract (.leaf .var)
            (.binary .multiply (.leaf .var) (.leaf (.literal "-0.001"))) := by
  have hvalue : (Literal.read ['-', '1', 'e', '-', '3']).map Literal.spell = some "-0.001" := by
    decide +kernel
  obtain ⟨v, hread, hspell⟩ := Option.map_eq_some_iff.1 hvalue
  have hliteral : (Tree.leaf (.literal "-0.001")).Grammatical := hspell ▸ .literal v
  have hproduct : (Tree.binary .multiply (.leaf .var) (.leaf (.literal "-0.001"))).Grammatical :=
    .binary (fun _ h => nomatch h) (fun _ h => nomatch h) .var hliteral
  have hdifference : (Tree.binary .subtract (.leaf .var)
      (.binary .multiply (.leaf .var) (.leaf (.literal "-0.001")))).Grammatical :=
    .binary (fun _ h => nomatch h) (fun _ _ => Nat.zero_le _) .var hproduct
  have hspelt : (Tree.leaf (.literal "-0.001")).Written ['-', '1', 'e', '-', '3'] :=
    .literal hread hspell (by decide)
  exact ofText_of_written hdifference (.binary .var (.binary .var hspelt)) (by decide) (by decide)

end Ordinate

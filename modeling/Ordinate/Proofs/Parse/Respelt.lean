import Ordinate.Proofs.Number.Spelling
import Ordinate.Proofs.Parse.Written

/-!
# Texts written back

* `Tree.chars` : a tree on one line, each operator between its operands;
* `Label.respelt` : a literal in the normal spelling of its value, any other label as it is;
* `Parse.Respells` : what a text keeps when its literals are spelt in another way;
* `Parse.Reads.reads_chars` : the tree of a text is also that of the text written back;
* `Expression.ofText_chars` : no character of a text is lost but blank ones, and only literals are
  spelt in another way.
-/

namespace Ordinate

open Parse

/-! ## Trees on one line -/

namespace Tree

/-- The tree on one line: an operator between its operands, a group and the operand of a logarithm in
parentheses. A node with another number of children stands for itself. -/
def chars : Tree → List Char
  | node (.binary op) [left, right] => left.chars ++ op.char :: right.chars
  | node .log [t] => 'l' :: 'o' :: 'g' :: '(' :: (t.chars ++ [')'])
  | node .group [t] => '(' :: (t.chars ++ [')'])
  | node label _ => label.name.toList

mutual

def mapLabels (f : Label → Label) : Tree → Tree
  | node label children => node (f label) (mapLabelsList f children)

def mapLabelsList (f : Label → Label) : List Tree → List Tree
  | [] => []
  | t :: ts => t.mapLabels f :: mapLabelsList f ts

end

end Tree

namespace Label

/-- A literal in the normal spelling of its value, any other label as it is. -/
def respelt (label : Label) : Label :=
  match label.value? with
  | some v => ofFloat v
  | none => label

/-- A literal has a value, and the text of an unknown leaf would have none. -/
def Classified : Label → Prop
  | literal text => Literal.accepts text = true
  | unknown text => Literal.accepts text = false
  | _ => True

theorem respelt_literal {text : String} {v : Float} (h : Literal.value? text = some v) :
    (literal text).respelt = ofFloat v := by
  rw [respelt, value?, h]

end Label

namespace Parse

variable {limits : Limits}

/-! ## Respelt texts -/

theorem Precedence.operatorAt?_past (p : Precedence) (op : Operator) (before earlier : List Char)
    (c : Char) :
    p.operatorAt? (before ++ op.char :: earlier) c = p.operatorAt? before c :=
  splitAt?_past op earlier p 0 before c

/-- What a text keeps when its literals are spelt in another way: it has no new splits, and what is
an operator behind it stays one. -/
structure Respells (text respelt : List Char) : Prop where
  ne_nil : respelt ≠ []
  balanced : Balanced 0 respelt
  not_blank : (∀ c ∈ text, Text.isBlank c = false) → ∀ c ∈ respelt, Text.isBlank c = false
  split?_eq_none : ∀ p : Precedence, p.split? text = none → p.split? respelt = none
  operatorAt?_eq : ∀ op : Operator, op.precedence.operatorAt? text.reverse op.char = some op →
    op.precedence.operatorAt? respelt.reverse op.char = some op

namespace Respells

theorem refl {text : List Char} (hne : text ≠ []) (hbalanced : Balanced 0 text) :
    Respells text text where
  ne_nil := hne
  balanced := hbalanced
  not_blank h := h
  split?_eq_none _ h := h
  operatorAt?_eq _ h := h

theorem spellChars (text : List Char) (v : Float) : Respells text (Literal.spellChars v) where
  ne_nil := (Literal.closes (Literal.read_spellChars v)).ne_nil
  balanced := Literal.balanced_of_read (Literal.read_spellChars v)
  not_blank _ := Literal.isBlank_of_read (Literal.read_spellChars v)
  split?_eq_none p _ :=
    Literal.split?_eq_none (Literal.read_spellChars v) (Literal.head?_spellChars v) p
  operatorAt?_eq op _ := (Literal.closes (Literal.read_spellChars v)).operatorAt? op

theorem group {a b : List Char} (h : Respells a b) :
    Respells ('(' :: (a ++ [')'])) ('(' :: (b ++ [')'])) where
  ne_nil := List.cons_ne_nil _ _
  balanced := h.balanced.group
  not_blank hblank := by
    rw [List.forall_mem_cons, List.forall_mem_append] at hblank ⊢
    exact ⟨hblank.1, h.not_blank hblank.2.1, hblank.2.2⟩
  split?_eq_none p _ := Precedence.scan_group h.balanced p []
  operatorAt?_eq op _ := (closes_group ('(' :: b)).operatorAt? op

theorem log {a b : List Char} (h : Respells a b) :
    Respells ('l' :: 'o' :: 'g' :: '(' :: (a ++ [')']))
      ('l' :: 'o' :: 'g' :: '(' :: (b ++ [')'])) where
  ne_nil := List.cons_ne_nil _ _
  balanced := .other (by decide) (.other (by decide) (.other (by decide) h.balanced.group))
  not_blank hblank := by
    rw [List.forall_mem_cons, List.forall_mem_cons, List.forall_mem_cons] at hblank ⊢
    exact ⟨hblank.1, hblank.2.1, hblank.2.2.1, h.group.not_blank hblank.2.2.2⟩
  split?_eq_none p _ := Precedence.split?_log h.balanced p
  operatorAt?_eq op _ := (closes_group ('l' :: 'o' :: 'g' :: '(' :: b)).operatorAt? op

theorem binary {op : Operator} {a a' b b' : List Char} (ha : Respells a a') (hb : Respells b b')
    (hnesting : nesting a = 0)
    (hop : op.precedence.operatorAt? a.reverse op.char = some op) :
    Respells (a ++ op.char :: b) (a' ++ op.char :: b') where
  ne_nil := List.append_ne_nil_of_left_ne_nil ha.ne_nil _
  balanced := ha.balanced.append (Balanced.char_cons_iff.2 hb.balanced)
  not_blank hblank := by
    rw [List.forall_mem_append, List.forall_mem_cons] at hblank ⊢
    exact ⟨ha.not_blank hblank.1, hblank.2.1, hb.not_blank hblank.2.2⟩
  split?_eq_none p hp := by
    obtain ⟨hleft, hnone, hright⟩ := (Precedence.split?_append_eq_none_iff hnesting op b).1 hp
    refine (Precedence.split?_append_eq_none_iff ha.balanced.nesting_eq op b').2
      ⟨ha.split?_eq_none p hleft, ?_, hb.split?_eq_none p hright⟩
    refine Precedence.operatorAt?_of_precedence_ne (fun heq => ?_) _
    subst heq
    cases hnone.symm.trans hop
  operatorAt?_eq own hown := by
    rw [List.reverse_append, List.reverse_cons, List.append_assoc, List.singleton_append,
      Precedence.operatorAt?_past] at hown ⊢
    exact hb.operatorAt?_eq own hown

end Respells

/-! ## Trees of texts written back -/

theorem chars_ofFloat (v : Float) : (Tree.leaf (.ofFloat v)).chars = Literal.spellChars v :=
  String.toList_ofList

theorem chars_unknown (text : List Char) :
    (Tree.leaf (.unknown (String.ofList text))).chars = text :=
  String.toList_ofList

/-- Writing back the tree of a text spells its literals in another way. -/
theorem Reads.respells {depth : Nat} {p : Option Precedence} {text : List Char} {t : Tree}
    (h : Reads limits depth p text t) : Respells text t.chars := by
  induction h with
  | split split _ _ _ _ ihl ihr =>
    obtain ⟨rfl, rfl, -, hnesting, hop⟩ := Precedence.of_splitFrom? split
    exact ihl.binary ihr hnesting hop
  | whole _ _ ih => exact ih
  | log log _ _ ih =>
    rw [text_of_logArgument? log]
    exact ih.log
  | group _ group _ _ ih =>
    rw [text_of_groupInside? group]
    exact ih.group
  | @leaf _ text _ _ _ leaf =>
    obtain ⟨label, rfl, hlabel⟩ := resultAt_leaf_eq_ok_iff.1 leaf
    cases hlabel with
    | @literal _ v _ =>
      rw [chars_ofFloat]
      exact .spellChars text v
    | var => exact .refl (by decide) (.other (by decide) .nil)
    | unknown _ _ word =>
      rw [chars_unknown]
      exact .refl (ne_nil_of_isWord word) (.of_forall (ne_paren_of_isWord word))

/-- The tree of a text is also that of the text written back, in any parser which admits as many
groups around one another as the tree has. -/
theorem Reads.reads_chars {limits' : Limits} {depth depth' : Nat} {p : Option Precedence}
    {text : List Char} {t : Tree} (h : Reads limits depth p text t)
    (hdepth : depth' + t.groupDepth ≤ limits'.depth) : Reads limits' depth' p t.chars t := by
  -- Each part of the text respells as its tree's characters, so the text written back has the first
  -- split where the text had it, and none where that had none.
  induction h generalizing depth' with
  | @split depth p found text s left right split left_ne right_ne hl hr ihl ihr =>
    rw [Tree.groupDepth_binary] at hdepth
    obtain ⟨htext, hfound, hleft, hnesting, hop⟩ := Precedence.of_splitFrom? split
    obtain ⟨hrank, -, hnone⟩ := Precedence.splitFrom?_eq_some_iff.1 split
    have hwhole := (Reads.split split left_ne right_ne hl hr).respells
    have hop' := hl.respells.operatorAt?_eq s.op (hfound ▸ hop)
    have hsplit : found.split? (left.chars ++ s.op.char :: right.chars) =
        some ⟨left.chars, s.op, right.chars⟩ :=
      Precedence.split?_eq_some_iff.2 ⟨rfl, hl.respells.split?_eq_none _ hleft,
        hl.respells.balanced.nesting_eq, hfound ▸ hop'⟩
    have hfirst : p.splitFrom? (left.chars ++ s.op.char :: right.chars) =
        some (found, ⟨left.chars, s.op, right.chars⟩) :=
      Precedence.splitFrom?_eq_some_iff.2 ⟨hrank, hsplit, fun q hq hlt =>
        hwhole.split?_eq_none q (hnone q hq hlt)⟩
    exact .split (s := ⟨left.chars, s.op, right.chars⟩) hfirst hl.respells.ne_nil
      hr.respells.ne_nil (ihl (by omega)) (ihr (by omega))
  | whole split reads ih =>
    refine .whole (Precedence.splitFrom?_eq_none_iff.2 fun q hq => ?_) (ih hdepth)
    exact reads.respells.split?_eq_none q (Precedence.splitFrom?_eq_none_iff.1 split q hq)
  | log log _ reads ih =>
    rw [Tree.groupDepth_unary (.inl rfl)] at hdepth
    exact .log (groupInside?_group reads.respells.balanced) (by omega) (ih (by omega))
  | group log group _ reads ih =>
    rw [Tree.groupDepth_unary (.inr rfl)] at hdepth
    exact .group rfl (groupInside?_group reads.respells.balanced) (by omega) (ih (by omega))
  | leaf log head leaf =>
    obtain ⟨label, rfl, hlabel⟩ := resultAt_leaf_eq_ok_iff.1 leaf
    cases hlabel with
    | @literal _ v _ =>
      rw [chars_ofFloat]
      exact reads_literal (Literal.read_spellChars v) depth'
    | var => exact reads_var depth'
    | unknown read ne word =>
      rw [chars_unknown]
      exact .leaf log head (resultAt_leaf_eq_ok_iff.2 ⟨_, rfl, .unknown read ne word⟩)

/-- A text is its tree written back, but with the literals as they are spelt in it. -/
theorem Reads.exists_chars_eq {depth : Nat} {p : Option Precedence} {text : List Char} {t : Tree}
    (h : Reads limits depth p text t) :
    ∃ raw : Tree, raw.chars = text ∧ raw.Everywhere (fun label _ => label.Classified) ∧
      raw.mapLabels Label.respelt = t := by
  induction h with
  | @split _ _ _ _ s _ _ split _ _ _ _ ihl ihr =>
    obtain ⟨left, hl, hleft, rfl⟩ := ihl
    obtain ⟨right, hr, hright, rfl⟩ := ihr
    obtain ⟨htext, -⟩ := Precedence.of_splitFrom? split
    refine ⟨.binary s.op left right, ?_, Tree.everywhere_binary.2 ⟨trivial, hleft, hright⟩, rfl⟩
    rw [← htext, Split.text, ← hl, ← hr]
    rfl
  | whole _ _ ih => exact ih
  | log log _ _ ih =>
    obtain ⟨raw, hraw, hlabels, rfl⟩ := ih
    refine ⟨.unary .log raw, ?_, Tree.everywhere_unary.2 ⟨trivial, hlabels⟩, rfl⟩
    rw [text_of_logArgument? log, ← hraw]
    rfl
  | group _ group _ _ ih =>
    obtain ⟨raw, hraw, hlabels, rfl⟩ := ih
    refine ⟨.unary .group raw, ?_, Tree.everywhere_unary.2 ⟨trivial, hlabels⟩, rfl⟩
    rw [text_of_groupInside? group, ← hraw]
    rfl
  | @leaf _ text _ _ _ leaf =>
    obtain ⟨label, rfl, hlabel⟩ := resultAt_leaf_eq_ok_iff.1 leaf
    cases hlabel with
    | @literal _ v read =>
      have hvalue : Literal.value? (String.ofList text) = some v := by
        rw [Literal.value?, String.toList_ofList, read]
      refine ⟨.leaf (.literal (String.ofList text)), String.toList_ofList,
        Tree.everywhere_leaf.2 ?_, ?_⟩
      · rw [Label.Classified, ← Literal.isSome_value?, hvalue, Option.isSome_some]
      · exact congrArg Tree.leaf (Label.respelt_literal hvalue)
    | var => exact ⟨.leaf .var, rfl, Tree.everywhere_leaf.2 trivial, rfl⟩
    | unknown read =>
      refine ⟨.leaf (.unknown (String.ofList text)), String.toList_ofList,
        Tree.everywhere_leaf.2 ?_, rfl⟩
      rw [Label.Classified, ← Literal.isSome_value?, Literal.value?, String.toList_ofList, read,
        Option.isSome_none]

end Parse

namespace Expression

/-- The tree of a text accounts for every character of it that is not blank, once and in order: the
text is the tree with the literals as they are spelt in it, written back. With the literals in their
normal spelling it is a text which writes the same expression. -/
theorem ofText_chars {text : String} {limits : Limits} {e : Expression}
    (h : ofText text limits = .ok e) :
    (∃ raw : Tree, raw.chars = Text.stripBlank text.toList ∧
        raw.Everywhere (fun label _ => label.Classified) ∧
          raw.mapLabels Label.respelt = e.toTree) ∧
      ∀ limits' : Limits, e.toTree.chars.length ≤ limits'.length →
        e.toTree.groupDepth ≤ limits'.depth →
          ofText (String.ofList e.toTree.chars) limits' = .ok e := by
  obtain ⟨-, -, t, hreads, rfl⟩ := ofText_eq_ok_iff.1 h
  rw [toTree_ofTree]
  refine ⟨hreads.exists_chars_eq, fun limits' hlength hdepth => ?_⟩
  have hblank := hreads.respells.not_blank fun _ => Text.isBlank_eq_false_of_mem_stripBlank
  refine (ofText_ofList_eq_ok_iff hblank).2 ⟨hlength, ?_, t, ?_, rfl⟩
  · exact balanced_iff.2 hreads.respells.balanced
  · exact hreads.reads_chars (by omega)

def oddLeaves : Tree :=
  .binary .subtract
    (.binary .multiply (.leaf (.unknown "1e+"))
      (.unary .log (.binary .subtract (.leaf (.unknown "--1")) (.leaf (.literal "2000.0")))))
    (.leaf (.unknown "x1"))

theorem ofText_chars_oddLeaves :
    ofText " 1e+ * log(--1 - 2E3) - x1" = .ok (ofTree oddLeaves) ∧
      (∃ raw : Tree, raw.chars = "1e+*log(--1-2E3)-x1".toList ∧
        raw.mapLabels Label.respelt = oddLeaves) ∧
      ofText "1e+*log(--1-2000.0)-x1" = .ok (ofTree oddLeaves) := by
  have htext : ofText " 1e+ * log(--1 - 2E3) - x1" = .ok (ofTree oddLeaves) := by decide +kernel
  have hstrip : Text.stripBlank " 1e+ * log(--1 - 2E3) - x1".toList =
      "1e+*log(--1-2E3)-x1".toList := by decide +kernel
  have hchars : String.ofList oddLeaves.chars = "1e+*log(--1-2000.0)-x1" := by decide +kernel
  have hlength : oddLeaves.chars.length ≤ ({} : Limits).length := by decide +kernel
  have hdepth : oddLeaves.groupDepth ≤ ({} : Limits).depth := by decide +kernel
  obtain ⟨⟨raw, hraw, -, hmap⟩, hagain⟩ := ofText_chars htext
  rw [toTree_ofTree] at hmap hagain
  refine ⟨htext, ⟨raw, hraw.trans hstrip, hmap⟩, ?_⟩
  rw [← hchars]
  exact hagain {} hlength hdepth

end Expression

end Ordinate

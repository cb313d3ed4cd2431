import Ordinate.Proofs.Number.Spelling
import Ordinate.Proofs.Parse.Written

/-!
# How trees of texts are arranged

* `Parse.Kept` : the texts of leaves which are neither numbers nor the variable;
* `Tree.Arranged` : what a parser makes of a node and the trees below it;
* `Parse.Reads.arranged` : every node of the tree of a text is so;
* `Expression.ofText_arranged` : arities, precedences and leaves of an expression which a text
  writes, and which of its operators are changed by their parents.
-/

namespace Ordinate

open Parse

/-! ## Arranged nodes -/

/-- The text of a leaf which is kept although it is neither a number nor the variable. -/
structure Parse.Kept (text : List Char) : Prop where
  alphanumeric : ∃ c ∈ text, Text.isAlphanumeric c
  ne_var : text ≠ ['x']
  not_literal : Literal.read text = none
  plain : ∀ c ∈ text, c ∉ ['(', ')', '*', '/', '^']
  not_blank : ∀ c ∈ text, Text.isBlank c = false

/-- What a parser makes of a node, which has the given trees below it. -/
structure Tree.Arranged (label : Label) (children : List Tree) : Prop where
  operands : ∀ op t u, label = .binary op → children = [t, u] →
    t.Tighter op.precedence ∧ u.AtLeast op.precedence
  literal : ∀ text, label = .literal text →
    ∃ v, Literal.value? text = some v ∧ Literal.spell v = text
  unknown : ∀ text, label = .unknown text → Kept text.toList

namespace Tree

theorem arranged_unary {label : Label} (hlabel : label = .log ∨ label = .group) {t : Tree}
    (ht : t.Everywhere Arranged) : (unary label t).Everywhere Arranged := by
  refine everywhere_unary.2 ⟨⟨?_, ?_, ?_⟩, ht⟩
  all_goals
    intros
    rcases hlabel with rfl | rfl <;> contradiction

theorem arranged_binary {op : Operator} {t u : Tree} (ht : t.Everywhere Arranged)
    (hu : u.Everywhere Arranged) (tighter : t.Tighter op.precedence)
    (at_least : u.AtLeast op.precedence) : (binary op t u).Everywhere Arranged := by
  refine everywhere_binary.2 ⟨⟨?_, by simp, by simp⟩, ht, hu⟩
  rintro own left right hlabel hchildren
  cases hlabel
  cases hchildren
  exact ⟨tighter, at_least⟩

end Tree

namespace Parse

variable {limits : Limits}

/-! ## Leaves -/

/-- A text without parentheses has no operators but signs, if it splits at none. -/
theorem plain_of_split?_eq_none {text : List Char} (hparen : ∀ c ∈ text, c ≠ '(' ∧ c ≠ ')')
    (hsplit : ∀ p : Precedence, p.split? text = none) :
    ∀ c ∈ text, c ∉ ['(', ')', '*', '/', '^'] := by
  have hnot : ∀ op : Operator, (∀ before, op.precedence.operatorAt? before op.char = some op) →
      op.char ∉ text := by
    intro op hop hmem
    obtain ⟨a, b, rfl⟩ := List.append_of_mem hmem
    have ha : Balanced 0 a := .of_forall fun c hc => hparen c (List.mem_append_left _ hc)
    have hnone := ((Precedence.split?_append_eq_none_iff ha.nesting_eq op b).1
      (hsplit op.precedence)).2.1
    cases hnone.symm.trans (hop a.reverse)
  intro c hc
  have hmultiply : c ≠ '*' := by
    rintro rfl
    exact hnot .multiply (fun _ => rfl) hc
  have hdivide : c ≠ '/' := by
    rintro rfl
    exact hnot .divide (fun _ => rfl) hc
  have hpower : c ≠ '^' := by
    rintro rfl
    exact hnot .power (fun _ => rfl) hc
  simp [hparen c hc, hmultiply, hdivide, hpower]

theorem WritesLeaf.arranged {text : List Char} {label : Label} (h : WritesLeaf text label)
    (hsplit : ∀ p : Precedence, p.split? text = none)
    (hblank : ∀ c ∈ text, Text.isBlank c = false) : Tree.Arranged label [] := by
  have hoperands : ∀ (op : Operator) (t u : Tree), label = .binary op → [] = [t, u] →
      t.Tighter op.precedence ∧ u.AtLeast op.precedence := by simp
  cases h with
  | @literal _ v _ =>
    refine ⟨hoperands, fun _ hname => ?_, by simp [Label.ofFloat]⟩
    refine ⟨v, ?_, Label.literal.inj hname⟩
    rw [← Label.literal.inj hname, Literal.value?, Literal.spell, String.toList_ofList,
      Literal.read_spellChars]
  | var => exact ⟨hoperands, by simp, by simp⟩
  | unknown read ne word =>
    refine ⟨hoperands, by simp, fun _ hname => ?_⟩
    rw [← Label.unknown.inj hname, String.toList_ofList]
    exact ⟨List.any_eq_true.1 (Bool.and_eq_true_iff.1 word).1, ne, read,
      plain_of_split?_eq_none (ne_paren_of_isWord word) hsplit, hblank⟩

/-! ## Trees of texts -/

/-- Every node of the tree of a text without looser splits is arranged. -/
theorem Reads.arranged {depth : Nat} {p : Option Precedence} {text : List Char} {t : Tree}
    (h : Reads limits depth p text t) (hblank : ∀ c ∈ text, Text.isBlank c = false)
    (hlooser : NoLooser p text) : t.Everywhere Tree.Arranged := by
  -- What stands right of an operator is read from the loosest precedence on, so nothing is asked of
  -- its splits; that there are no looser ones is seen on the text around the operator.
  induction h with
  | @split depth p found text s left right split left_ne right_ne hl hr ihl ihr =>
    obtain ⟨-, hs, -⟩ := Precedence.splitFrom?_eq_some_iff.1 split
    obtain ⟨htext, hfound, -⟩ := Precedence.of_splitFrom? split
    obtain ⟨hleft, hright⟩ := Precedence.split?_sides_eq_none hs (hlooser.split?_eq_none split)
    rw [← htext, Split.text, List.forall_mem_append, List.forall_mem_cons] at hblank
    apply Tree.arranged_binary
    · exact ihl hblank.1 (noLooser_tighter_iff.2 hleft)
    · exact ihr hblank.2.2 (noLooser_sum _)
    · intro own hown
      by_contra hle
      exact hl.split?_ne_none hown (hleft _ (hfound ▸ Nat.le_of_not_lt hle))
    · intro own hown
      by_contra hlt
      exact hr.split?_ne_none hown (hright _ (hfound ▸ Nat.lt_of_not_le hlt))
  | whole split _ ih => exact ih hblank (hlooser.of_splitFrom?_eq_none split)
  | log log _ _ ih =>
    rw [text_of_logArgument? log] at hblank
    refine Tree.arranged_unary (.inl rfl) (ih (fun c hc => hblank c ?_) (noLooser_sum _))
    simp [hc]
  | group _ group _ _ ih =>
    rw [text_of_groupInside? group] at hblank
    refine Tree.arranged_unary (.inr rfl) (ih (fun c hc => hblank c ?_) (noLooser_sum _))
    simp [hc]
  | leaf _ _ leaf =>
    obtain ⟨label, rfl, hlabel⟩ := resultAt_leaf_eq_ok_iff.1 leaf
    exact Tree.everywhere_leaf.2 (hlabel.arranged (fun q => hlooser q (by simp)) hblank)

end Parse

theorem Operator.precedence_eq_of_under_ne {op parent : Operator}
    (h : op.under (some (.binary parent)) ≠ op) : op.precedence = parent.precedence := by
  cases op <;> cases parent <;> first | rfl | exact absurd rfl h

namespace Expression

variable {limits : Limits} {text : String} {e : Expression}

namespace Linked

theorem arranged (he : e.Linked) (h : e.toTree.Everywhere Tree.Arranged) (p : e.Place) :
    Tree.Arranged (e.label p) ((e.children p).map e.subtree) :=
  everywhere_subtree_iff.1 h p (he.below_root p)

theorem rank_operands (he : e.Linked) (h : e.toTree.Everywhere Tree.Arranged) {p l r : e.Place}
    {op : Operator} (hop : e.label p = .binary op) (hchildren : e.children p = [l, r]) :
    (∀ own, e.label l = .binary own → op.precedence.rank < own.precedence.rank) ∧
      ∀ own, e.label r = .binary own → op.precedence.rank ≤ own.precedence.rank := by
  obtain ⟨tighter, at_least⟩ := (he.arranged h p).operands op (e.subtree l) (e.subtree r) hop (by
    rw [hchildren, List.map_cons, List.map_cons, List.map_nil])
  rw [Tree.Tighter, label_subtree] at tighter
  rw [Tree.AtLeast, label_subtree] at at_least
  exact ⟨tighter, at_least⟩

/-- An operator which its parent changes stands right of a `-` or a `/`. -/
theorem exists_parent_of_under_ne (he : e.Linked) (hs : e.Saturated)
    (h : e.toTree.Everywhere Tree.Arranged) {p : e.Place} {op : Operator} (hop : e.label p = .binary op)
    (hne : op.under (e.context p) ≠ op) :
    ∃ q l : e.Place, (e.label q = .binary .subtract ∨ e.label q = .binary .divide) ∧
      e.children q = [l, p] := by
  cases hq : e.parent? p with
  | none =>
    rw [context, hq, Option.map_none] at hne
    exact absurd op.under_none hne
  | some q =>
    rw [context, hq, Option.map_some] at hne
    have hlabel : e.label q = .binary .subtract ∨ e.label q = .binary .divide := by
      by_contra hnot
      exact hne (Operator.under_eq_self (not_or.1 hnot))
    obtain ⟨parent, hparent⟩ : ∃ parent, e.label q = .binary parent := by
      rcases hlabel with h | h <;> exact ⟨_, h⟩
    have hmem : p ∈ e.children q := by
      obtain ⟨i, hi, hplace⟩ := Option.bind_eq_some_iff.1 hq
      rw [he.mem_children, hi, place?_eq_some_iff.1 hplace]
    have hlength := he.length_children hs q
    rw [hparent] at hlength
    obtain ⟨l, r, hchildren⟩ := List.length_eq_two.1 hlength
    rw [hchildren, List.mem_pair] at hmem
    rcases hmem with rfl | rfl
    · have hlt := (he.rank_operands h hparent hchildren).1 op hop
      rw [hparent] at hne
      rw [Operator.precedence_eq_of_under_ne hne] at hlt
      exact absurd hlt (Nat.lt_irrefl _)
    · exact ⟨q, l, hlabel, hchildren⟩

end Linked

/-- Every node of an expression which a text writes has as many children as its label asks for. Left
of an operator stands none which is as loose, and right of it none which is looser. The text of a
literal is the normal spelling of its value; that of an unknown leaf has a letter or a digit, is
neither `x` nor a literal, and has no parenthesis, no operator but signs, and no blank character. And
only an operator right of a `-` or a `/` is changed by its parent. -/
theorem ofText_arranged (h : ofText text limits = .ok e) (p : e.Place) :
    (e.node p).children.length = (e.label p).arity ∧
    (∀ (op : Operator) (l r : e.Place), e.label p = .binary op →
      (e.node p).children = [l.val, r.val] →
        (∀ own, e.label l = .binary own → op.precedence.rank < own.precedence.rank) ∧
        ∀ own, e.label r = .binary own → op.precedence.rank ≤ own.precedence.rank) ∧
    (∀ s, e.label p = .literal s → ∃ v, Literal.value? s = some v ∧ Literal.spell v = s) ∧
    (∀ s, e.label p = .unknown s →
      (∃ c ∈ s.toList, Text.isAlphanumeric c) ∧ s ≠ "x" ∧ Literal.accepts s = false ∧
        ∀ c ∈ s.toList, c ∉ ['(', ')', '*', '/', '^'] ∧ Text.isBlank c = false) ∧
    ∀ op : Operator, e.label p = .binary op → op.under (e.context p) ≠ op →
      ∃ q l : e.Place, (e.label q = .binary .subtract ∨ e.label q = .binary .divide) ∧
        (e.node p).parent = some q.val ∧ (e.node q).children = [l.val, p.val] := by
  have he := linked_of_ofText h
  have hs := saturated_of_ofText h
  obtain ⟨-, -, t, hreads, rfl⟩ := ofText_eq_ok_iff.1 h
  have htree : ((ofTree t).toTree).Everywhere Tree.Arranged := by
    rw [toTree_ofTree]
    exact hreads.arranged (fun _ => Text.isBlank_eq_false_of_mem_stripBlank) (noLooser_sum _)
  have hchildren : ∀ q : (ofTree t).Place,
      ((ofTree t).children q).map Fin.val = ((ofTree t).node q).children := he.map_val_children
  refine ⟨hs p, ?_, (he.arranged htree p).literal, ?_, ?_⟩
  · intro op l r hop hlr
    have hpair : ((ofTree t).children p).map Fin.val = [l, r].map Fin.val :=
      (hchildren p).trans hlr
    exact he.rank_operands htree hop (List.map_injective_iff.2 Fin.val_injective hpair)
  · intro s hlabel
    obtain ⟨alphanumeric, ne_var, not_literal, plain, not_blank⟩ :=
      (he.arranged htree p).unknown s hlabel
    refine ⟨alphanumeric, ?_, ?_, fun c hc => ⟨plain c hc, not_blank c hc⟩⟩
    · rintro rfl
      exact ne_var rfl
    · rw [← Literal.isSome_value?, Literal.value?, not_literal, Option.isSome_none]
  · intro op hop hne
    obtain ⟨q, l, hlabel, hpair⟩ := he.exists_parent_of_under_ne hs htree hop hne
    refine ⟨q, l, hlabel, he.mem_children.1 (by simp [hpair]), ?_⟩
    rw [← hchildren, hpair, List.map_cons, List.map_cons, List.map_nil]

/-- A difference whose right side is a sum, of which it makes a difference. -/
def minusSum : Expression :=
  ofTree (.binary .subtract (.leaf .var)
    (.binary .add (.leaf (.unknown "q")) (.leaf (.literal "20.0"))))

def minusSum.right : minusSum.Place :=
  ⟨2, by decide +kernel⟩

theorem ofText_arranged_minusSum :
    ofText "x - q + 2E1" = .ok minusSum ∧
      Operator.add.under (minusSum.context minusSum.right) = .subtract ∧
      ∃ q l : minusSum.Place,
        (minusSum.label q = .binary .subtract ∨ minusSum.label q = .binary .divide) ∧
          (minusSum.node minusSum.right).parent = some q.val ∧
            (minusSum.node q).children = [l.val, minusSum.right.val] := by
  have htext : ofText "x - q + 2E1" = .ok minusSum := by decide +kernel
  have hlabel : minusSum.label minusSum.right = .binary .add := by decide +kernel
  have hunder : Operator.add.under (minusSum.context minusSum.right) = .subtract := by
    decide +kernel
  obtain ⟨-, -, -, -, hchanged⟩ := ofText_arranged htext minusSum.right
  exact ⟨htext, hunder, hchanged .add hlabel (by rw [hunder]; decide)⟩

end Expression

end Ordinate

import Ordinate.Proofs.Derivative.Orders
import Ordinate.Proofs.Parse.Arranged

/-!
# Labels which their names tell apart

* `Label.Legible` : the text of a leaf is one which a parser or a rule gives to such a leaf;
* `Label.ofName_name` : such a label is the one with its name, unless it is the word `log`;
* `Label.eq_of_name_eq` : the number of operands decides between the word and the logarithm;
* `Tree.Legible`, `Tree.keptByRules_legible` : the labels of trees, which the rules keep so;
* `Parse.Reads.legible` : the labels of the tree of a text.
-/

namespace Ordinate

open Parse

/-! ## Labels -/

namespace Label

/-- The text of a number is a literal, and that of a leaf without meaning one which is kept although
it is none. -/
def Legible : Label → Prop
  | literal text => Literal.accepts text
  | unknown text => Kept text.toList
  | binary _ | log | group | var => True

/-- No operator has the name of another label. -/
theorem ofName_of_ne_symbol {text : String} (h : ∀ op : Operator, op.symbol ≠ text) :
    ofName text =
      if text = "log" then log
      else if text = "()" then group
      else if text = "x" then var
      else if Literal.accepts text then literal text
      else unknown text := by
  have hnone : Operator.ofSymbol? text = none :=
    List.find?_eq_none.2 fun op _ => by simpa using h op
  rw [ofName, hnone]

theorem ofName_of_accepts {text : String} (h : Literal.accepts text) :
    ofName text = literal text := by
  have hne : ∀ other, Literal.accepts other = false → text ≠ other := by
    rintro other hother rfl
    cases h.symm.trans hother
  rw [ofName_of_ne_symbol fun op => (hne _ (by cases op <;> rfl)).symm, if_neg (hne _ rfl),
    if_neg (hne _ rfl), if_neg (hne _ rfl), if_pos h]

theorem ofName_of_kept {text : String} (h : Kept text.toList) (hlog : text ≠ "log") :
    ofName text = unknown text := by
  obtain ⟨⟨c, hc, halphanumeric⟩, ne_var, not_literal, plain, -⟩ := h
  have hsymbol : ∀ op : Operator, op.symbol ≠ text := by
    rintro op rfl
    rw [Operator.symbol, String.toList_singleton, List.mem_singleton] at hc
    rw [hc, isAlphanumeric_char] at halphanumeric
    cases halphanumeric
  have hgroup : text ≠ "()" := by
    rintro rfl
    exact plain '(' (by decide) (by decide)
  have hvar : text ≠ "x" := by
    rintro rfl
    exact ne_var rfl
  have haccepts : ¬Literal.accepts text := by
    rw [← Literal.isSome_value?, Literal.value?, not_literal]
    exact Bool.false_ne_true
  rw [ofName_of_ne_symbol hsymbol, if_neg hlog, if_neg hgroup, if_neg hvar, if_neg haccepts]

/-- A legible label is the one with its name, unless it is a leaf with the word `log`. -/
theorem ofName_name {label : Label} (h : label.Legible) (hlog : label ≠ unknown "log") :
    ofName label.name = label := by
  cases label with
  | binary op => rw [name, ofName, Operator.ofSymbol?_symbol]
  | log | group | var => rfl
  | literal text => exact ofName_of_accepts h
  | unknown text => exact ofName_of_kept h fun htext => hlog (htext ▸ rfl)

/-- Two legible labels with one name and one number of operands are the same. -/
theorem eq_of_name_eq {l m : Label} (hl : l.Legible) (hm : m.Legible) (hname : l.name = m.name)
    (harity : l.arity = m.arity) : l = m := by
  have hword : ∀ {k : Label}, k.Legible → k.name = "log" → k.arity = 0 → k = unknown "log" := by
    intro k hk hkname hkarity
    by_contra hne
    have hklog := ofName_name hk hne
    rw [hkname] at hklog
    rw [← hklog] at hkarity
    cases hkarity
  by_cases hllog : l = unknown "log"
  · subst hllog
    exact (hword hm hname.symm harity.symm).symm
  by_cases hmlog : m = unknown "log"
  · subst hmlog
    exact absurd (hword hl hname harity) hllog
  rw [← ofName_name hl hllog, hname, ofName_name hm hmlog]

theorem isBlank_of_mem_name {label : Label} (h : label.Legible) :
    ∀ c ∈ label.name.toList, Text.isBlank c = false := by
  cases label with
  | binary op => cases op <;> exact forall_mem_of_all (by decide)
  | log | group | var => exact forall_mem_of_all (by decide)
  | literal text =>
    obtain ⟨v, hv⟩ := Literal.exists_value?_iff.2 h
    exact Literal.isBlank_of_read hv
  | unknown text => exact h.not_blank

end Label

/-! ## Trees -/

namespace Tree

def Legible (t : Tree) : Prop :=
  t.Everywhere fun label _ => label.Legible

@[simp] theorem legible_node {label : Label} {children : List Tree} :
    (node label children).Legible ↔ label.Legible ∧ ∀ t ∈ children, t.Legible :=
  everywhere_node

@[simp] theorem legible_leaf {label : Label} : (leaf label).Legible ↔ label.Legible :=
  everywhere_leaf

@[simp] theorem legible_unary {label : Label} {t : Tree} :
    (unary label t).Legible ↔ label.Legible ∧ t.Legible :=
  everywhere_unary

@[simp] theorem legible_binary {op : Operator} {t u : Tree} :
    (binary op t u).Legible ↔ t.Legible ∧ u.Legible :=
  everywhere_binary.trans (and_iff_right trivial)

theorem legible_group {t : Tree} : (unary .group t).Legible ↔ t.Legible :=
  legible_unary.trans (and_iff_right trivial)

@[simp] theorem legible_keepUnder {parent : Label} {t : Tree} :
    (t.keepUnder parent).Legible ↔ t.Legible := by
  unfold keepUnder
  split
  · exact legible_group
  · rfl

@[simp] theorem legible_operation {op : Operator} {t u : Tree} :
    (operation op t u).Legible ↔ t.Legible ∧ u.Legible := by
  rw [operation, legible_binary, legible_keepUnder, legible_keepUnder]

theorem legible_applied {t : Tree} (context : Option Label) :
    (t.applied context).Legible ↔ t.Legible := by
  induction t generalizing context with
  | node label children ih =>
    obtain ⟨op, u, v, h⟩ | ⟨_, _, h, hop⟩ := operation_or (node label children)
    · cases h
      have hu := ih u (by simp) (some (.binary op))
      have hv := ih v (by simp) (some (.binary op))
      rw [show node (.binary op) [u, v] = binary op u v from rfl, applied_binary,
        legible_operation, legible_binary, hu, hv]
    · cases h
      rw [applied_node hop, legible_node, legible_node, List.forall_mem_map]
      exact and_congr_right fun _ => forall₂_congr fun t ht => ih t ht _

theorem keptByRules_legible : KeptByRules Legible where
  operand h := (legible_node.1 h).2
  number _ h := legible_leaf.2 h
  log h := legible_unary.2 ⟨trivial, h⟩
  group := legible_group.2
  operation _ ht hu := legible_operation.2 ⟨ht, hu⟩

end Tree

theorem Tree.Arranged.legible {label : Label} {children : List Tree}
    (h : Tree.Arranged label children) : label.Legible := by
  cases label with
  | binary op | log | group | var => trivial
  | literal text =>
    obtain ⟨v, hv, -⟩ := h.literal text rfl
    exact Literal.exists_value?_iff.1 ⟨v, hv⟩
  | unknown text => exact h.unknown text rfl

theorem Parse.Reads.legible {limits : Limits} {depth : Nat} {text : List Char} {t : Tree}
    (h : Reads limits depth (some .sum) text t) (hblank : ∀ c ∈ text, Text.isBlank c = false) :
    t.Legible :=
  (h.arranged hblank (noLooser_sum text)).mono fun _ _ => Tree.Arranged.legible

end Ordinate

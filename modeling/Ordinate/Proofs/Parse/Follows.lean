import Ordinate.Parse.Whole

/-!
# Parsers which follow the parser

What is proved of every text by induction over the rules is proved here once.

* `Parse.induction_on_length` : a property which a text has if all shorter ones have it;
* `Parse.Follows` : a relation between the steps of some rules and those of the parser of trees,
  which holds of the steps for one text and is kept in sequences;
* `Parse.Follows.chain`, `Parse.Follows.operand` : it holds of all that the rules do.
-/

namespace Ordinate.Parse

/-- A property which a text has if all shorter ones have it holds of every text. -/
@[elab_as_elim]
theorem induction_on_length {P : List Char → Prop}
    (step : ∀ text, (∀ t : List Char, t.length < text.length → P t) → P text) (text : List Char) :
    P text :=
  step text fun t _ => induction_on_length step t
termination_by text.length

/-- On texts with the property `P`, which the parts of such a text have too, the rules `R` take
texts apart as the parser does, and all their steps are related to those of the parser. Where the
parser makes the tree `t`, they make `f t`. -/
structure Follows {m : Type → Type} [Monad m] {τ : Type} (R : Rules m τ) (f : Tree → τ)
    (limits : Limits) (rel : m τ → Attempt Tree → Prop) (P : List Char → Prop) : Prop where
  pure (t : Tree) : rel (pure (f t)) (pure t)
  bind {x : m τ} {y : Attempt Tree} {k : τ → m τ} {l : Tree → Attempt Tree} (h : rel x y)
    (hk : ∀ t, rel (k (f t)) (l t)) : rel (x >>= k) (y >>= l)
  splitFrom? {text : List Char} (h : P text) (p : Precedence) :
    R.splitFrom? p text = Pure.pure (p.sides? text)
  logArgument? {text : List Char} (h : P text) : R.logArgument? text = Pure.pure (logPart? text)
  groupInside? {text : List Char} (h : P text) : R.groupInside? text = Pure.pure (groupPart? text)
  leaf (text : List Char) : rel (R.leaf text) (leaf text)
  reject (event : Event) : rel (R.reject event) (reject event)
  deeper {x : m τ} {y : Attempt Tree} (h : rel x y) : rel (R.deeper x) (deeper limits y)
  unary (label : Label) (t : Tree) : R.unary label (f t) = f (.unary label t)
  binary (op : Operator) (t u : Tree) : R.binary op (f t) (f u) = f (.binary op t u)
  sides {text : List Char} {p found : Precedence} {s : Split} (h : P text)
    (split : p.splitFrom? text = some (found, s)) : P s.left ∧ P s.right
  argument {text inside : List Char} (h : P text) (log : Parse.logArgument? text = some inside) :
    P inside
  inside {text inside : List Char} (h : P text) (group : Parse.groupInside? text = some inside) :
    P inside

namespace Follows

variable {m : Type → Type} [Monad m] {τ : Type} {R : Rules m τ} {f : Tree → τ}
  {limits : Limits} {rel : m τ → Attempt Tree → Prop} {P : List Char → Prop} {text : List Char}

section Rules

variable (F : Follows R f limits rel P)

include F

theorem join (links : Links) (last : Tree) :
    R.join (links.map (Prod.map f id)) (f last) = f (links.join last) := by
  induction links generalizing last with
  | nil => rfl
  | cons link links ih => exact (congrArg _ (F.binary _ _ _)).trans (ih _)

variable [LawfulMonad m]

theorem map {x : m τ} {y : Attempt Tree} {g : τ → τ} {k : Tree → Tree} (h : rel x y)
    (hg : ∀ t, g (f t) = f (k t)) : rel (g <$> x) (k <$> y) := by
  rw [map_eq_pure_bind, map_eq_pure_bind]
  refine F.bind h fun t => ?_
  rw [hg]
  exact F.pure (k t)

theorem operand_of_shorter (h : P text)
    (ih : ∀ inside : List Char, inside.length < text.length → P inside →
      rel (R.chain [] .sum inside) (chain limits [] .sum inside)) :
    rel (R.operand text) (operand limits text) := by
  have hlog := F.logArgument? h
  have hgroup := F.groupInside? h
  cases hl : Parse.logArgument? text with
  | some inside =>
    rw [logPart?_eq_some hl] at hlog
    rw [Rules.operand_of_log hlog, operand_of_logArgument? hl]
    exact F.map (F.deeper (ih inside (length_lt_of_logArgument? hl) (F.argument h hl))) (F.unary .log)
  | none =>
    rw [logPart?_eq_none hl] at hlog
    by_cases hp : text.head? = some '('
    · cases hg : Parse.groupInside? text with
      | some inside =>
        rw [groupPart?_eq_some hg] at hgroup
        rw [Rules.operand_of_group hlog hp hgroup, operand_of_groupInside? hl hg]
        have hinside := ih inside (length_lt_of_groupInside? hg) (F.inside h hg)
        exact F.map (F.deeper hinside) (F.unary .group)
      | none =>
        rw [groupPart?_eq_none hg] at hgroup
        rw [Rules.operand_of_unclosed hlog hp hgroup, operand_of_head?_eq hl hp hg]
        exact F.reject _
    · rw [Rules.operand_of_leaf hlog hp, operand_of_head?_ne hl hp]
      exact F.leaf text

theorem chain (h : P text) (links : Links) (p : Precedence) :
    rel (R.chain (links.map (Prod.map f id)) p text) (chain limits links p text) := by
  -- Both sides of a split and the inside of a group are shorter, but the last operand of a chain is
  -- the text itself; of that only the inside is met again.
  induction text using induction_on_length generalizing links p with
  | step text ih =>
    have hoperand : ∀ t : List Char, t.length ≤ text.length → P t →
        rel (R.operand t) (Parse.operand limits t) := by
      intro t ht hP
      exact F.operand_of_shorter hP fun inside hlt hinside =>
        ih inside (by omega) hinside [] .sum
    have hsplit := F.splitFrom? h p
    cases hs : p.splitFrom? text with
    | none =>
      rw [sides?_eq_none hs] at hsplit
      rw [Rules.chain_of_none hsplit, chain_of_splitFrom?_eq_none hs]
      exact F.map (hoperand text (Nat.le_refl _) h) (F.join links)
    | some first =>
      obtain ⟨found, s⟩ := first
      have hleft := length_left_lt hs
      obtain ⟨hPleft, hPright⟩ := F.sides h hs
      rw [sides?_eq_some hs] at hsplit
      rw [Rules.chain_of_some hsplit]
      by_cases hempty : s.left = [] ∨ s.right = []
      · rw [if_pos hempty, chain_of_missing_operand hs hempty]
        exact F.reject _
      · rw [if_neg hempty, chain_of_splitFrom?_eq_some hs hempty]
        refine F.bind ?_ fun left => ih _ (length_right_lt hs) hPright ((left, s.op) :: links) .sum
        rw [Rules.leftSide, leftSide_eq]
        cases found.tighter with
        | some next => exact ih _ hleft hPleft [] next
        | none => exact hoperand _ (Nat.le_of_lt hleft) hPleft

theorem operand (h : P text) : rel (R.operand text) (operand limits text) :=
  F.operand_of_shorter h fun _ _ hinside => F.chain hinside [] .sum

end Rules

theorem chain_id [LawfulMonad m] {R : Rules m Tree} {rel : m Tree → Attempt Tree → Prop}
    (F : Follows R id limits rel P) (h : P text) (links : Links) (p : Precedence) :
    rel (R.chain links p text) (Parse.chain limits links p text) := by
  simpa using F.chain h links p

end Follows

end Ordinate.Parse

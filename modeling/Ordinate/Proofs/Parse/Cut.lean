import Ordinate.Proofs.Parse.Reads
import Ordinate.Proofs.Parse.Scan

/-!
# Texts cut at operators

* `Chain` : things with operators between them, and `Chain.Forall₂` two chains with the same
  operators and related things;
* `Parse.Precedence.cut` : a text cut at every split of one precedence;
* `Chain.toTree` : the tree of a chain, which leans to the right;
* `Parse.NoLooser` : a text has no splits which are looser than a precedence;
* `Parse.Reads.exists_chain` : a text without looser splits reads as the tree of a chain, of which
  the pieces read alone.
-/

namespace Ordinate

universe u v w

/-- An operator at the root of the tree binds tighter than `p`. -/
def Tree.Tighter (p : Parse.Precedence) (t : Tree) : Prop :=
  ∀ op, t.label = .binary op → p.rank < op.precedence.rank

/-! ## Chains -/

/-- Things with operators between them. -/
inductive Chain (α : Type u) where
  | last (a : α)
  | link (a : α) (op : Operator) (rest : Chain α)

namespace Chain

variable {α : Type u} {β : Type v}

def mapFirst (f : α → α) : Chain α → Chain α
  | last a => last (f a)
  | link a op rest => link (f a) op rest

theorem mapFirst_id (c : Chain α) : c.mapFirst (fun a => a) = c := by
  cases c <;> rfl

theorem mapFirst_mapFirst (f g : α → α) (c : Chain α) :
    (c.mapFirst f).mapFirst g = c.mapFirst fun a => g (f a) := by
  cases c <;> rfl

def map (f : α → β) : Chain α → Chain β
  | last a => last (f a)
  | link a op rest => link (f a) op (rest.map f)

theorem map_map {γ : Type w} (f : α → β) (g : β → γ) (c : Chain α) :
    (c.map f).map g = c.map fun a => g (f a) := by
  induction c with
  | last a => rfl
  | link a op rest ih => rw [map, map, map, ih]

def operators : Chain α → List Operator
  | last _ => []
  | link _ op rest => op :: rest.operators

theorem operators_map (f : α → β) (c : Chain α) : (c.map f).operators = c.operators := by
  induction c with
  | last a => rfl
  | link a op rest ih => exact congrArg (op :: ·) ih

/-- The tree of a chain: each operator has what stands behind it on its right. -/
def toTree : Chain Tree → Tree
  | last t => t
  | link t op rest => .binary op t rest.toTree

/-- The operators of a chain of trees are all of one precedence, and those at the roots of its trees
are tighter. -/
def Flat (p : Parse.Precedence) : Chain Tree → Prop
  | last t => t.Tighter p
  | link t op rest => t.Tighter p ∧ op.precedence = p ∧ rest.Flat p

/-- Two chains have the same operators, and between these things which are related. -/
inductive Forall₂ (R : α → β → Prop) : Chain α → Chain β → Prop
  | last {a : α} {b : β} (rel : R a b) : Forall₂ R (.last a) (.last b)
  | link {a : α} {b : β} {op : Operator} {c : Chain α} {d : Chain β} (rel : R a b)
      (rest : Forall₂ R c d) : Forall₂ R (.link a op c) (.link b op d)

theorem Forall₂.imp {R S : α → β → Prop} (h : ∀ a b, R a b → S a b) {c : Chain α} {d : Chain β}
    (hR : Forall₂ R c d) : Forall₂ S c d := by
  induction hR with
  | last rel => exact .last (h _ _ rel)
  | link rel _ ih => exact .link (h _ _ rel) ih

theorem Forall₂.map {γ : Type w} {R : α → β → Prop} {S : α → γ → Prop} {f : β → γ}
    {c : Chain α} {d : Chain β} (hR : Forall₂ R c d) (h : ∀ a b, R a b → S a (f b)) :
    Forall₂ S c (d.map f) := by
  induction hR with
  | last rel => exact .last (h _ _ rel)
  | link rel _ ih => exact .link (h _ _ rel) ih

theorem Forall₂.operators_eq {R : α → β → Prop} {c : Chain α} {d : Chain β} (h : Forall₂ R c d) :
    c.operators = d.operators := by
  induction h with
  | last _ => rfl
  | link _ _ ih => rw [operators, operators, ih]

end Chain

namespace Parse

namespace Precedence

/-! ## Cuts -/

/-- A text cut at every operator of precedence `p` outside all parentheses, where the text `before`
has been passed already and `depth` parentheses of it are open. -/
def cutFrom (p : Precedence) (depth : Int) (before : List Char) : List Char → Chain (List Char)
  | [] => .last []
  | c :: rest =>
    let pieces := p.cutFrom (depth + rise c) (c :: before) rest
    match p.splitAt? depth before c with
    | some op => .link [] op pieces
    | none => pieces.mapFirst (c :: ·)

/-- A text cut at every operator of precedence `p` outside all parentheses. -/
def cut (p : Precedence) (text : List Char) : Chain (List Char) :=
  p.cutFrom 0 [] text

theorem cutFrom_past (p : Precedence) (depth : Int) (before : List Char) (op : Operator)
    (earlier text : List Char) :
    p.cutFrom depth (before ++ op.char :: earlier) text = p.cutFrom depth before text := by
  induction text generalizing depth before with
  | nil => rfl
  | cons c rest ih => rw [cutFrom, cutFrom, splitAt?_past, ← List.cons_append, ih]

theorem cutFrom_append {p : Precedence} {depth : Int} {before a : List Char}
    (h : p.scan depth before a = none) (b : List Char) :
    p.cutFrom depth before (a ++ b) =
      (p.cutFrom (depth + nesting a) (a.reverse ++ before) b).mapFirst (a ++ ·) := by
  induction a generalizing depth before with
  | nil => simp [Chain.mapFirst_id]
  | cons c a ih =>
    rw [scan_cons] at h
    split at h
    · cases h
    · next hsplit =>
      rw [List.cons_append, cutFrom, hsplit, ih h, nesting_cons, List.reverse_cons,
        List.append_assoc, List.singleton_append, Int.add_assoc]
      exact Chain.mapFirst_mapFirst _ _ _

theorem cut_of_split?_eq_none {p : Precedence} {text : List Char} (h : p.split? text = none) :
    p.cut text = .last text := by
  have := cutFrom_append h []
  rw [List.append_nil] at this
  rw [cut, this, cutFrom, Chain.mapFirst, List.append_nil]

/-- The first cut is the first split, and the others are those of what stands right of it. -/
theorem cut_of_split?_eq_some {p : Precedence} {text : List Char} {s : Split}
    (h : p.split? text = some s) : p.cut text = .link s.left s.op (p.cut s.right) := by
  obtain ⟨rfl, hleft, hnesting, hop⟩ := split?_eq_some_iff.1 h
  rw [cut, Split.text, cutFrom_append hleft, cutFrom, splitAt?, hnesting, rise_char]
  rw [Int.add_zero, Int.add_zero, if_pos rfl, List.append_nil, hop]
  show Chain.link (s.left ++ []) _ (p.cutFrom 0 ([] ++ s.op.char :: s.left.reverse) _) = _
  rw [cutFrom_past, List.append_nil, cut]

end Precedence

/-! ## Readings of cut texts -/

variable {limits : Limits}

/-- The text splits at no operator which is looser than the precedence; without one, at none. -/
def NoLooser (p : Option Precedence) (text : List Char) : Prop :=
  ∀ q : Precedence, (∀ r ∈ p, q.rank < r.rank) → q.split? text = none

theorem noLooser_sum (text : List Char) : NoLooser (some .sum) text := fun q hq =>
  absurd (hq .sum rfl) (Nat.not_lt_zero q.rank)

theorem noLooser_tighter_iff {p : Precedence} {text : List Char} :
    NoLooser p.tighter text ↔ ∀ q : Precedence, q.rank ≤ p.rank → q.split? text = none :=
  forall_congr' fun _ => imp_congr_left Precedence.forall_lt_tighter_iff

theorem NoLooser.split?_eq_none {p found : Precedence} {text : List Char} {s : Split}
    (h : NoLooser (some p) text) (hs : p.splitFrom? text = some (found, s)) (q : Precedence)
    (hq : q.rank < found.rank) : q.split? text = none := by
  by_cases hpq : p.rank ≤ q.rank
  · exact (Precedence.splitFrom?_eq_some_iff.1 hs).2.2 q hpq hq
  · exact h q fun r hr => Option.some.inj hr ▸ Nat.lt_of_not_le hpq

theorem NoLooser.of_splitFrom?_eq_none {p : Precedence} {text : List Char}
    (h : NoLooser (some p) text) (hs : p.splitFrom? text = none) : NoLooser none text := by
  intro q _
  by_cases hpq : p.rank ≤ q.rank
  · exact Precedence.splitFrom?_eq_none_iff.1 hs q hpq
  · exact h q fun r hr => Option.some.inj hr ▸ Nat.lt_of_not_le hpq

/-- A text without looser splits reads as it does where it may split at all operators. -/
theorem Reads.loosen {depth : Nat} {p : Option Precedence} {text : List Char} {t : Tree}
    (h : Reads limits depth p text t) (hlooser : NoLooser p text) :
    Reads limits depth (some .sum) text t := by
  have hnone : NoLooser none text → Precedence.sum.splitFrom? text = none := fun hno =>
    Precedence.splitFrom?_eq_none_iff.2 fun q _ => hno q (by simp)
  cases h with
  | split split left_ne right_ne left right =>
    obtain ⟨-, hs, -⟩ := Precedence.splitFrom?_eq_some_iff.1 split
    exact .split (Precedence.splitFrom?_eq_some_iff.2 ⟨Nat.zero_le _, hs, fun q _ =>
      hlooser.split?_eq_none split q⟩) left_ne right_ne left right
  | whole split reads => exact .whole (hnone (hlooser.of_splitFrom?_eq_none split)) reads
  | log log depth_lt reads => exact .whole (hnone hlooser) (.log log depth_lt reads)
  | group log group depth_lt reads =>
    exact .whole (hnone hlooser) (.group log group depth_lt reads)
  | leaf log head leaf => exact .whole (hnone hlooser) (.leaf log head leaf)

/-- The root of the tree of a text has no operator of a precedence at which the text does not
split. -/
theorem Reads.split?_ne_none {depth : Nat} {p : Option Precedence} {text : List Char} {t : Tree}
    (h : Reads limits depth p text t) {op : Operator} (hop : t.label = .binary op) :
    op.precedence.split? text ≠ none := by
  have hoperand : ∀ t, Reads limits depth none text t → t.label ≠ .binary op := by
    intro t ht
    cases ht with
    | log => nofun
    | group => nofun
    | leaf _ _ leaf =>
      obtain ⟨label, rfl, harity⟩ := exists_leaf_of_resultAt leaf
      rintro rfl
      cases harity
  cases h with
  | split split =>
    obtain ⟨-, hs, -⟩ := Precedence.splitFrom?_eq_some_iff.1 split
    obtain ⟨-, -, -, hat⟩ := Precedence.split?_eq_some_iff.1 hs
    cases hop
    rw [Precedence.precedence_of_operatorAt? hat, hs]
    nofun
  | whole _ reads => exact absurd hop (hoperand t reads)
  | log log depth_lt reads => exact absurd hop (hoperand _ (.log log depth_lt reads))
  | group log group depth_lt reads =>
    exact absurd hop (hoperand _ (.group log group depth_lt reads))
  | leaf log head leaf => exact absurd hop (hoperand t (.leaf log head leaf))

/-- A text without looser splits reads as its two sides around its first split. -/
theorem Reads.of_split? {depth : Nat} {p : Precedence} {text : List Char} {s : Split} {t : Tree}
    (h : Reads limits depth (some .sum) text t)
    (hlooser : ∀ q : Precedence, q.rank < p.rank → q.split? text = none)
    (hs : p.split? text = some s) :
    ∃ left right, t = .binary s.op left right ∧ s.left ≠ [] ∧ s.right ≠ [] ∧
      Reads limits depth p.tighter s.left left ∧ Reads limits depth (some .sum) s.right right := by
  have hfirst : Precedence.sum.splitFrom? text = some (p, s) :=
    Precedence.splitFrom?_eq_some_iff.2 ⟨Nat.zero_le _, hs, fun q _ => hlooser q⟩
  cases h with
  | split split left_ne right_ne left right =>
    cases hfirst.symm.trans split
    exact ⟨_, _, rfl, left_ne, right_ne, left, right⟩
  | whole split => cases hfirst.symm.trans split

/-- Where a text splits at nothing as loose as `p`, its tree is tighter. -/
theorem Reads.tighter {depth : Nat} {p : Precedence} {text : List Char} {t : Tree}
    (h : Reads limits depth (some .sum) text t)
    (hsplit : ∀ q : Precedence, q.rank ≤ p.rank → q.split? text = none) : t.Tighter p := by
  intro op hop
  by_contra hrank
  exact h.split?_ne_none hop (hsplit _ (Nat.le_of_not_lt hrank))

/-- A piece of a text, of which the parentheses are balanced, reads as a tree. -/
structure PieceReads (limits : Limits) (text piece : List Char) (t : Tree) : Prop where
  infix_of : piece <:+: text
  balanced : Balanced 0 piece
  reads : Reads limits 0 (some .sum) piece t

/-- A text without splits looser than `p` reads as the tree of a chain, and each of the pieces into
which it is cut at `p` reads alone. -/
theorem Reads.exists_chain {p : Precedence} {text : List Char} {t : Tree}
    (hbalanced : Balanced 0 text) (h : Reads limits 0 (some .sum) text t)
    (hlooser : ∀ q : Precedence, q.rank < p.rank → q.split? text = none) :
    ∃ c : Chain Tree, t = c.toTree ∧ c.Flat p ∧
      (p.cut text).Forall₂ (PieceReads limits text) c := by
  -- The induction is on what stands right of the first split. That is cut at the same operators as
  -- within the whole text, and it has no looser splits either.
  induction text using induction_on_length generalizing t with
  | step text ih =>
    cases hs : p.split? text with
    | none =>
      have hnone : ∀ q : Precedence, q.rank ≤ p.rank → q.split? text = none := by
        intro q hq
        rcases Precedence.eq_or_rank_lt hq with rfl | hq
        · exact hs
        · exact hlooser q hq
      rw [Precedence.cut_of_split?_eq_none hs]
      exact ⟨.last t, rfl, h.tighter hnone, .last ⟨List.infix_rfl, hbalanced, h⟩⟩
    | some s =>
      obtain ⟨left, right, rfl, -, -, hl, hr⟩ := h.of_split? hlooser hs
      rw [Precedence.cut_of_split?_eq_some hs]
      obtain ⟨rfl, hleft, hnesting, hop⟩ := Precedence.split?_eq_some_iff.1 hs
      obtain ⟨hbl, hbr⟩ := hbalanced.of_append hnesting
      rw [Balanced.char_cons_iff] at hbr
      obtain ⟨hnone, hright⟩ := Precedence.split?_sides_eq_none hs hlooser
      have hbehind : s.right <:+: s.text := ⟨s.left ++ [s.op.char], [], by simp [Split.text]⟩
      have hlt : s.right.length < s.text.length := by
        rw [Split.text, List.length_append, List.length_cons]
        omega
      have hl := hl.loosen (noLooser_tighter_iff.2 hnone)
      obtain ⟨c, rfl, hflat, hc⟩ := ih s.right hlt hbr hr hright
      refine ⟨.link left s.op c, rfl,
        ⟨hl.tighter hnone, Precedence.precedence_of_operatorAt? hop, hflat⟩, .link ?_ ?_⟩
      · exact ⟨List.infix_append [] s.left _, hbl, hl⟩
      · exact hc.imp fun piece t hpiece => { hpiece with infix_of := hpiece.infix_of.trans hbehind }

end Parse

end Ordinate

import Mathlib.Data.List.Flatten
import Ordinate.Proofs.Derivative.Ruled
import Ordinate.Proofs.Expression.InOrder

/-!
# What differentiations record

A rule uses its operands more than once, but looks into each of them at most once.

* `Expression.HasGap` : there is no rule for a node, and why;
* `Expression.LooksInto`, `Expression.Reaches` : the operands which are differentiated for the
  derivative of a node, and the nodes which a differentiation gets to;
* `Expression.Records`, `Expression.records_gaps` : the gaps of a node are those of the nodes which
  its differentiation gets to, each once and in the order of a walk;
* `Expression.differentiateAll`, `Expression.differentiateAll_records` : what several
  differentiations with one record give and leave in it.
-/

namespace Ordinate

namespace Tree

theorem gaps_unknown (text : String) (ts : List Tree) :
    (node (.unknown text) ts).gaps = #[.unknownLeaf text] := by
  rw [gaps, derivative]
  rfl

theorem gaps_of_arity_ne {label : Label} {ts : List Tree} (harity : 0 < label.arity)
    (hlen : ts.length ≠ label.arity) : (node label ts).gaps = #[.wrongArity label] := by
  match label, ts with
  | .var, _ | .literal _, _ | .unknown _, _ => exact absurd harity (Nat.lt_irrefl 0)
  | .binary _, [_, _] | .log, [_] | .group, [_] => exact absurd rfl hlen
  | .binary op, [] | .binary op, [_] | .binary op, _ :: _ :: _ :: _ =>
    cases op <;> rfl
  | .log, [] | .log, _ :: _ :: _ | .group, [] | .group, _ :: _ :: _ => rfl

end Tree

namespace Expression

variable {e : Expression} {p : e.Place}

/-- There is no rule for a node. -/
inductive HasGap (e : Expression) (p : e.Place) : Gap → Prop
  /-- It is a leaf without a meaning. -/
  | unknownLeaf {text : String} (hlabel : e.label p = .unknown text) :
      HasGap e p (.unknownLeaf text)
  /-- It is a power, and both of its operands vary. -/
  | varyingPower {l r : e.Place} (hlabel : e.label p = .binary .power)
      (hchildren : e.children p = [l, r]) (hl : e.Varies l) (hr : e.Varies r) :
      HasGap e p .varyingPower
  /-- It asks for operands, and for another number than it has. -/
  | wrongArity (harity : 0 < (e.label p).arity)
      (hlen : (e.children p).length ≠ (e.label p).arity) : HasGap e p (.wrongArity (e.label p))

/-- For the derivative of the node `p` its child `c` is differentiated. -/
structure LooksInto (e : Expression) (p c : e.Place) : Prop where
  mem_children : c ∈ e.children p
  arity_pos : 0 < (e.label p).arity
  not_hasGap : ∀ g, ¬e.HasGap p g
  /-- Of a power, only what varies is differentiated. -/
  varies : e.label p = .binary .power → e.Varies c

/-- The differentiation of the node `p` gets to the node `q`. -/
def Reaches (e : Expression) : e.Place → e.Place → Prop :=
  Relation.ReflTransGen e.LooksInto

/-- The gaps are those of the nodes which the differentiation of the node `p` gets to, one for each
node without a rule, in the order of a walk. -/
def Records (e : Expression) (p : e.Place) (gaps : List Gap) : Prop :=
  ∃ places : List e.Place, places.Sublist (e.walk p) ∧
    (∀ q, q ∈ places ↔ e.Reaches p q ∧ ∃ g, e.HasGap q g) ∧ List.Forall₂ e.HasGap places gaps

/-! ## One node -/

theorem Reaches.below {q : e.Place} (h : e.Reaches p q) : e.Below p q :=
  Relation.ReflTransGen.mono (fun _ _ => LooksInto.mem_children) _ _ h

theorem reaches_iff {q : e.Place} :
    e.Reaches p q ↔ q = p ∨ ∃ c, e.LooksInto p c ∧ e.Reaches c q := by
  rw [Reaches, Relation.ReflTransGen.cases_head_iff, eq_comm]

theorem records_singleton {g : Gap} (h : e.HasGap p g) : e.Records p [g] := by
  refine ⟨[p], ?_, fun q => ?_, .cons h .nil⟩
  · rw [walk_eq]
    exact (List.nil_sublist _).cons_cons p
  · rw [List.mem_singleton, reaches_iff]
    constructor
    · rintro rfl
      exact ⟨.inl rfl, g, h⟩
    · rintro ⟨rfl | ⟨c, hc, -⟩, -⟩
      · rfl
      · exact absurd h (hc.not_hasGap g)

theorem exists_places_of_records {cs : List e.Place} {f : e.Place → List Gap}
    (h : ∀ c ∈ cs, e.Records c (f c)) :
    ∃ places : List e.Place, places.Sublist (cs.flatMap e.walk) ∧
      (∀ q, q ∈ places ↔ ∃ c ∈ cs, e.Reaches c q ∧ ∃ g, e.HasGap q g) ∧
      List.Forall₂ e.HasGap places (cs.flatMap f) := by
  induction cs with
  | nil => exact ⟨[], .slnil, fun q => ⟨nofun, nofun⟩, .nil⟩
  | cons c cs ih =>
    rw [List.forall_mem_cons] at h
    obtain ⟨first, hsub, hmem, hgaps⟩ := h.1
    obtain ⟨rest, hsub', hmem', hgaps'⟩ := ih h.2
    refine ⟨first ++ rest, hsub.append hsub', fun q => ?_, ?_⟩
    · rw [List.mem_append, hmem, hmem', List.exists_mem_cons_iff]
    · rw [List.flatMap_cons]
      exact List.rel_append hgaps hgaps'

/-- A node with a rule records what those of its children do which are looked into. -/
theorem records_flatMap {cs : List e.Place} {f : e.Place → List Gap} (hgap : ∀ g, ¬e.HasGap p g)
    (hsub : cs.Sublist (e.children p)) (hmem : ∀ c, c ∈ cs ↔ e.LooksInto p c)
    (h : ∀ c ∈ cs, e.Records c (f c)) : e.Records p (cs.flatMap f) := by
  obtain ⟨places, hplaces, hreached, hgaps⟩ := exists_places_of_records h
  refine ⟨places, ?_, fun q => ?_, hgaps⟩
  · rw [walk_eq]
    exact (hplaces.trans (hsub.flatMap e.walk)).cons p
  · rw [hreached, reaches_iff]
    constructor
    · rintro ⟨c, hc, hq, g, hg⟩
      exact ⟨.inr ⟨c, (hmem c).1 hc, hq⟩, g, hg⟩
    · rintro ⟨rfl | ⟨c, hc, hq⟩, g, hg⟩
      · exact absurd hg (hgap g)
      · exact ⟨c, (hmem c).2 hc, hq, g, hg⟩

theorem records_nil (hgap : ∀ g, ¬e.HasGap p g) (h : ∀ c, ¬e.LooksInto p c) : e.Records p [] :=
  records_flatMap hgap (List.nil_sublist _) (f := fun _ => [])
    (fun c => ⟨nofun, fun hc => absurd hc (h c)⟩) nofun

/-- A node for which only one child is looked into records what this child does. -/
theorem records_of_unique {c : e.Place} {gaps : List Gap} (hgap : ∀ g, ¬e.HasGap p g)
    (hmem : ∀ d, e.LooksInto p d ↔ d = c) (h : e.Records c gaps) : e.Records p gaps := by
  have hsub : [c].Sublist (e.children p) :=
    List.singleton_sublist.2 ((hmem c).2 rfl).mem_children
  have hrecords := records_flatMap (f := fun _ => gaps) hgap hsub
    (fun d => List.mem_singleton.trans (hmem d).symm) (List.forall_mem_singleton.2 h)
  rwa [List.flatMap_cons, List.flatMap_nil, List.append_nil] at hrecords

/-! ## All nodes -/

section Binary

variable {op : Operator} {l r : e.Place} (hlabel : e.label p = .binary op)
  (hchildren : e.children p = [l, r])

include hlabel hchildren

theorem hasGap_binary_iff {g : Gap} :
    e.HasGap p g ↔ g = .varyingPower ∧ op = .power ∧ e.Varies l ∧ e.Varies r := by
  constructor
  · intro h
    cases h with
    | unknownLeaf h => cases hlabel.symm.trans h
    | varyingPower h hc hl hr =>
      cases hlabel.symm.trans h
      cases hchildren.symm.trans hc
      exact ⟨rfl, rfl, hl, hr⟩
    | wrongArity _ hlen =>
      rw [hlabel, hchildren] at hlen
      exact absurd rfl hlen
  · rintro ⟨rfl, rfl, hl, hr⟩
    exact .varyingPower hlabel hchildren hl hr

theorem looksInto_binary_iff {c : e.Place} :
    e.LooksInto p c ↔
      (c = l ∨ c = r) ∧ (op = .power → e.Varies c ∧ ¬(e.Varies l ∧ e.Varies r)) := by
  have hmem : c ∈ e.children p ↔ c = l ∨ c = r := by
    rw [hchildren, List.mem_pair]
  constructor
  · intro h
    refine ⟨hmem.1 h.mem_children, ?_⟩
    rintro rfl
    refine ⟨h.varies hlabel, fun hboth => h.not_hasGap .varyingPower ?_⟩
    exact .varyingPower hlabel hchildren hboth.1 hboth.2
  · rintro ⟨hc, hpower⟩
    refine ⟨hmem.2 hc, ?_, fun g hg => ?_, fun h => ?_⟩
    · rw [hlabel]
      exact Nat.two_pos
    · obtain ⟨-, hop, hboth⟩ := (hasGap_binary_iff hlabel hchildren).1 hg
      exact (hpower hop).2 hboth
    · exact (hpower (Label.binary.inj (hlabel.symm.trans h))).1

variable (hl : e.Records l (e.subtree l).gaps.toList)
  (hr : e.Records r (e.subtree r).gaps.toList)

include hl hr

theorem records_gaps_power (hop : op = .power) : e.Records p (e.subtree p).gaps.toList := by
  subst hop
  have hgap := @hasGap_binary_iff _ _ _ _ _ hlabel hchildren
  have hlooks := @looksInto_binary_iff _ _ _ _ _ hlabel hchildren
  have hleft : (e.subtree l).hasFixedValue ↔ ¬e.Varies l := hasFixedValue_subtree_iff
  have hright : (e.subtree r).hasFixedValue ↔ ¬e.Varies r := hasFixedValue_subtree_iff
  rw [subtree_binary hlabel hchildren, Tree.gaps_binary]
  by_cases hvl : e.Varies l <;> by_cases hvr : e.Varies r
  · rw [Bool.eq_false_iff.2 fun h => hleft.1 h hvl, Bool.eq_false_iff.2 fun h => hright.1 h hvr]
    exact records_singleton (.varyingPower hlabel hchildren hvl hvr)
  · rw [Bool.eq_false_iff.2 fun h => hleft.1 h hvl, hright.2 hvr]
    refine records_of_unique (fun g hg => hvr (hgap.1 hg).2.2.2) (fun d => ?_) hl
    rw [hlooks]
    constructor
    · rintro ⟨rfl | rfl, hd⟩
      · rfl
      · exact absurd (hd rfl).1 hvr
    · rintro rfl
      exact ⟨.inl rfl, fun _ => ⟨hvl, fun h => hvr h.2⟩⟩
  · rw [hleft.2 hvl, Bool.eq_false_iff.2 fun h => hright.1 h hvr]
    refine records_of_unique (fun g hg => hvl (hgap.1 hg).2.2.1) (fun d => ?_) hr
    rw [hlooks]
    constructor
    · rintro ⟨rfl | rfl, hd⟩
      · exact absurd (hd rfl).1 hvl
      · rfl
    · rintro rfl
      exact ⟨.inr rfl, fun _ => ⟨hvr, fun h => hvl h.1⟩⟩
  · rw [hleft.2 hvl, hright.2 hvr]
    refine records_nil (fun g hg => hvl (hgap.1 hg).2.2.1) fun d hd => ?_
    obtain ⟨rfl | rfl, hd⟩ := hlooks.1 hd
    · exact hvl (hd rfl).1
    · exact hvr (hd rfl).1

theorem records_gaps_of_ne_power (hop : op ≠ .power) :
    e.Records p (e.subtree p).gaps.toList := by
  have hrecords : e.Records p ([l, r].flatMap fun c => (e.subtree c).gaps.toList) := by
    refine records_flatMap (fun g hg => ?_) (hchildren ▸ .refl _) (fun c => ?_) ?_
    · exact hop ((hasGap_binary_iff hlabel hchildren).1 hg).2.1
    · rw [List.mem_pair, looksInto_binary_iff hlabel hchildren]
      exact (and_iff_left fun h => absurd h hop).symm
    · rw [List.forall_mem_cons, List.forall_mem_singleton]
      exact ⟨hl, hr⟩
  have hgaps : (e.subtree p).gaps = (e.subtree l).gaps ++ (e.subtree r).gaps := by
    rw [subtree_binary hlabel hchildren, Tree.gaps_binary]
    cases op with
    | power => exact absurd rfl hop
    | _ => rfl
  rwa [List.flatMap_cons, List.flatMap_cons, List.flatMap_nil, List.append_nil,
    ← Array.toList_append, ← hgaps] at hrecords

end Binary

theorem records_gaps_unary {g : e.Place} (hlabel : e.label p = .log ∨ e.label p = .group)
    (hchildren : e.children p = [g]) (hg : e.Records g (e.subtree g).gaps.toList) :
    e.Records p (e.subtree p).gaps.toList := by
  have harity : (e.label p).arity = 1 := by
    rcases hlabel with h | h <;> rw [h] <;> rfl
  have hgap : ∀ gap, ¬e.HasGap p gap := by
    intro gap hgap
    cases hgap with
    | unknownLeaf h | varyingPower h _ _ _ => simp [h] at hlabel
    | wrongArity _ hlen => exact hlen (by rw [hchildren, harity]; rfl)
  have hgaps : (e.subtree p).gaps = (e.subtree g).gaps := by
    rw [subtree_unary rfl hchildren]
    rcases hlabel with h | h <;> rw [h]
    · exact Tree.gaps_log _
    · exact Tree.gaps_group _
  rw [hgaps]
  refine records_of_unique hgap (fun c => ?_) hg
  have hmem : c ∈ e.children p ↔ c = g := by
    rw [hchildren, List.mem_singleton]
  refine ⟨fun h => hmem.1 h.mem_children, fun h => ⟨hmem.2 h, ?_, hgap, fun hpower => ?_⟩⟩
  · rw [harity]
    exact Nat.one_pos
  · simp [hpower] at hlabel

/-- The variable and a literal record nothing, whatever stands below them. -/
theorem records_gaps_constant (hlabel : e.label p = .var ∨ ∃ text, e.label p = .literal text) :
    e.Records p (e.subtree p).gaps.toList := by
  have harity : (e.label p).arity = 0 := by
    rcases hlabel with h | ⟨text, h⟩ <;> rw [h] <;> rfl
  have hgaps : (e.subtree p).gaps = #[] := by
    rw [subtree_eq]
    rcases hlabel with h | ⟨text, h⟩ <;> rw [h] <;> rfl
  rw [hgaps]
  refine records_nil (fun g hg => ?_) fun c hc => ?_
  · cases hg with
    | unknownLeaf h | varyingPower h _ _ _ => simp [h] at hlabel
    | wrongArity h => exact absurd harity h.ne'
  · exact absurd harity hc.arity_pos.ne'

theorem records_gaps (p : e.Place) : e.Records p (e.subtree p).gaps.toList := by
  induction p using induction_on_children with
  | step p ih =>
    by_cases harity : 0 < (e.label p).arity ∧ (e.children p).length ≠ (e.label p).arity
    · have hgaps : (e.subtree p).gaps = #[.wrongArity (e.label p)] := by
        rw [subtree_eq, Tree.gaps_of_arity_ne harity.1 (by simpa using harity.2)]
      rw [hgaps]
      exact records_singleton (.wrongArity harity.1 harity.2)
    have hlen : 0 < (e.label p).arity → (e.children p).length = (e.label p).arity := by
      intro h
      by_contra hne
      exact harity ⟨h, hne⟩
    cases hlabel : e.label p with
    | var => exact records_gaps_constant (.inl hlabel)
    | literal text => exact records_gaps_constant (.inr ⟨text, hlabel⟩)
    | unknown text =>
      rw [subtree_eq, hlabel, Tree.gaps_unknown]
      exact records_singleton (.unknownLeaf hlabel)
    | log | group =>
      rw [hlabel] at hlen
      obtain ⟨g, hg⟩ := List.length_eq_one_iff.1 (hlen Nat.one_pos)
      exact records_gaps_unary (by simp [hlabel]) hg (ih g (by simp [hg]))
    | binary op =>
      rw [hlabel] at hlen
      obtain ⟨l, r, hlr⟩ := List.length_eq_two.1 (hlen Nat.two_pos)
      have hl := ih l (by simp [hlr])
      have hr := ih r (by simp [hlr])
      by_cases hop : op = .power
      · exact records_gaps_power hlabel hlr hl hr hop
      · exact records_gaps_of_ne_power hlabel hlr hl hr hop

/-! ## Between two nodes -/

theorem Linked.reaches_of_below (he : e.Linked) {a q : e.Place} (h : e.Reaches p q)
    (hpa : e.Below p a) (haq : e.Below a q) : e.Reaches a q := by
  induction h with
  | refl =>
    obtain rfl : a = p := Fin.ext (Nat.le_antisymm haq.le hpa.le)
    exact .refl
  | @tail b q _ hlooks ih =>
    obtain rfl | ⟨b', hab', hq⟩ := Relation.ReflTransGen.cases_tail haq
    · exact .refl
    · obtain rfl := he.eq_of_mem_children hq hlooks.mem_children
      exact (ih hab').tail hlooks

section Below

variable (he : e.Linked) {a b : e.Place} (hb : e.Reaches p b) (ha : e.Below p a)

include he hb ha

/-- Nothing below a node without a rule is got to. -/
theorem Linked.eq_of_reaches_of_hasGap {g : Gap} (hg : e.HasGap a g) (hab : e.Below a b) :
    a = b := by
  obtain rfl | ⟨c, hc, -⟩ := reaches_iff.1 (he.reaches_of_below hb ha hab)
  · rfl
  · exact absurd hg (hc.not_hasGap g)

/-- Nothing in an operand of a power which does not vary is got to. -/
theorem Linked.not_below_of_reaches {c : e.Place} (hpower : e.label a = .binary .power)
    (hc : c ∈ e.children a) (hfixed : ¬e.Varies c) : ¬e.Below c b := by
  intro hcb
  have hab : e.Below a b := below_iff.2 (.inr ⟨c, hc, hcb⟩)
  obtain rfl | ⟨d, hd, hdb⟩ := reaches_iff.1 (he.reaches_of_below hb ha hab)
  · exact absurd hcb.le (Nat.not_le.2 (lt_of_mem_children hc))
  · have hsame : c = d := by
      obtain h | h := he.below_or_below hcb hdb.below
      · exact he.eq_of_below_of_mem_children hc hd.mem_children h
      · exact (he.eq_of_below_of_mem_children hd.mem_children hc h).symm
    exact hfixed (hsame ▸ hd.varies hpower)

end Below

/-! ## Several differentiations -/

/-- The derivatives of several nodes, differentiated one after the other with one record. -/
def differentiateAll (calls : List ((e : Expression) × e.Place)) :
    StateM GapRecord (List Expression) :=
  calls.mapM fun call => call.1.derivativeWith call.2

def ownGaps (call : (e : Expression) × e.Place) : List Gap :=
  (call.1.derivativeWith call.2 {}).2.gaps.toList

theorem derivativeWith_eq_ownGaps (call : (e : Expression) × e.Place) (r : GapRecord) :
    call.1.derivativeWith call.2 r =
      (call.1.derivative call.2, r.noteAll (ownGaps call).toArray) := by
  rw [ownGaps, derivative, derivativeWith_eq, derivativeWith_eq]
  simp

theorem differentiateAll_eq (calls : List ((e : Expression) × e.Place)) (r : GapRecord) :
    differentiateAll calls r =
      (calls.map fun call => call.1.derivative call.2,
        r.noteAll (calls.flatMap ownGaps).toArray) := by
  induction calls generalizing r with
  | nil => rfl
  | cons call calls ih =>
    have hcons : differentiateAll (call :: calls) r =
        let (d, r') := call.1.derivativeWith call.2 r
        let (ds, r'') := differentiateAll calls r'
        (d :: ds, r'') := by
      unfold differentiateAll
      rw [List.mapM_cons]
      rfl
    rw [hcons, derivativeWith_eq_ownGaps]
    dsimp only
    rw [ih, ← GapRecord.noteAll_append]
    simp

theorem ownGaps_eq (p : e.Place) :
    ownGaps ⟨e, p⟩ = ((e.applied p).subtree (e.applied p).root).gaps.toList := by
  have htree : (e.applied p).subtree (e.applied p).root = (e.subtree p).applied (e.context p) :=
    toTree_ofTree _
  rw [htree]
  rfl

/-- Nodes in the order of a walk are in the order of their numbers, where all nodes are. -/
theorem InOrder.pairwise_lt (h : e.InOrder) {places : List e.Place}
    (hsub : places.Sublist (e.walk e.root)) : places.Pairwise (· < ·) := by
  have hnumbers : (places.map Fin.val).Sublist (List.range e.size) := h ▸ hsub.map Fin.val
  have hpairwise := List.Pairwise.sublist hnumbers List.pairwise_lt_range
  rw [List.pairwise_map] at hpairwise
  exact hpairwise

/-- Several differentiations with one record do not disturb one another: each gives what it gives
with a record of its own, and the record has, behind the gaps which it had, those which each call
notes alone, one call after the other; the journal has one entry for each. A call notes the gaps of
the nodes without a rule which it gets to in its node as it is applied, one for each node, in their
order from left to right. It gets to nothing below these nodes, and to nothing in an operand of a
power which does not vary. -/
theorem differentiateAll_records (calls : List ((e : Expression) × e.Place)) (r : GapRecord) :
    (differentiateAll calls r).1 = calls.map (fun call => call.1.derivative call.2) ∧
    (differentiateAll calls r).2.gaps.toList = r.gaps.toList ++ calls.flatMap ownGaps ∧
    (differentiateAll calls r).2.entriesSince r =
      calls.flatMap (fun call => (ownGaps call).map Gap.entry) ∧
    (∀ entry ∈ (differentiateAll calls r).2.entriesSince r, entry.level = .debug) ∧
    ∀ (e : Expression) (p : e.Place), ∃ places : List (e.applied p).Place,
      places.Sublist ((e.applied p).walk (e.applied p).root) ∧ places.Pairwise (· < ·) ∧
      (∀ q, q ∈ places ↔
        (e.applied p).Reaches (e.applied p).root q ∧ ∃ g, (e.applied p).HasGap q g) ∧
      List.Forall₂ (e.applied p).HasGap places (ownGaps ⟨e, p⟩) ∧
      (∀ a ∈ places, ∀ b, (e.applied p).Reaches (e.applied p).root b →
        (e.applied p).Below a b → a = b) ∧
      ∀ a c, (e.applied p).label a = .binary .power → c ∈ (e.applied p).children a →
        ¬(e.applied p).Varies c → ∀ b, (e.applied p).Reaches (e.applied p).root b →
          ¬(e.applied p).Below c b := by
  have hentries : (differentiateAll calls r).2.entriesSince r =
      (calls.flatMap ownGaps).map Gap.entry := by
    rw [differentiateAll_eq, GapRecord.noteAll_eq, GapRecord.entriesSince]
    simp
  refine ⟨by rw [differentiateAll_eq], by simp [differentiateAll_eq],
    hentries.trans List.map_flatMap, fun entry hentry => ?_, fun e p => ?_⟩
  · rw [hentries] at hentry
    obtain ⟨g, -, rfl⟩ := List.mem_map.1 hentry
    rfl
  · have hlinked : (e.applied p).Linked := linked_ofTree _
    have horder : (e.applied p).InOrder := inOrder_ofTree _
    obtain ⟨places, hsub, hmem, hgaps⟩ := (e.applied p).records_gaps (e.applied p).root
    rw [ownGaps_eq]
    refine ⟨places, hsub, horder.pairwise_lt hsub, hmem, hgaps, fun a ha b hb hab => ?_,
      fun a c hpower hc hfixed b hb => ?_⟩
    · obtain ⟨-, g, hg⟩ := (hmem a).1 ha
      exact hlinked.eq_of_reaches_of_hasGap hb (hlinked.below_root a) hg hab
    · exact hlinked.not_below_of_reaches hb (hlinked.below_root a) hpower hc hfixed

end Expression

end Ordinate

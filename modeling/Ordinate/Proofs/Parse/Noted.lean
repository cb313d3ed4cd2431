import Ordinate.Proofs.Parse.Descent
import Ordinate.Proofs.Parse.Outcome

/-!
# What a parser notes

* `Tree.unknownLeaves` : the texts of the leaves without meaning, from left to right;
* `Parse.Event.rejects` : a rule fails with this event;
* `Parse.Notes` : the events on the way to a tree, or to a reason why there is none;
* `Parse.TakesNotes` : a step which only adds such events to those before it;
* `Parse.takesNotes_descend` : the rules are such steps;
* `Parse.parse_events` : so the events of a parse tell its outcome.
-/

namespace Ordinate

open Parse

/-! ## Leaves without meaning -/

def Label.unknown? : Label → Option String
  | unknown text => some text
  | _ => none

namespace Tree

/-- The texts of the leaves without meaning, from left to right. -/
def unknownLeaves (t : Tree) : List String :=
  t.preorder.filterMap Label.unknown?

theorem map_snd_outline (t : Tree) (level : Nat) : (t.outline level).map Prod.snd = t.preorder := by
  rw [preorder]
  generalize 0 = base
  induction t generalizing level base with
  | node label children ih =>
    rw [outline, outline, outlineList_eq_flatMap, outlineList_eq_flatMap, List.map_cons,
      List.map_cons, List.map_flatMap, List.map_flatMap]
    exact congrArg _ (List.flatMap_congr fun t ht => ih t ht _ _)

theorem unknownLeaves_node (label : Label) (children : List Tree) :
    (node label children).unknownLeaves =
      label.unknown?.toList ++ children.flatMap unknownLeaves := by
  have hbelow : ((node label children).outline 0).map Prod.snd =
      label :: children.flatMap preorder := by
    rw [outline, outlineList_eq_flatMap, List.map_cons, List.map_flatMap]
    exact congrArg _ (List.flatMap_congr fun t _ => t.map_snd_outline _)
  rw [unknownLeaves, preorder, hbelow, List.filterMap_cons, List.filterMap_flatMap]
  cases label.unknown? <;> rfl

@[simp] theorem unknownLeaves_leaf (label : Label) :
    (leaf label).unknownLeaves = label.unknown?.toList := by
  rw [leaf, unknownLeaves_node, List.flatMap_nil, List.append_nil]

@[simp] theorem unknownLeaves_unary (label : Label) (t : Tree) :
    (unary label t).unknownLeaves = label.unknown?.toList ++ t.unknownLeaves := by
  rw [unary, unknownLeaves_node, List.flatMap_singleton]

@[simp] theorem unknownLeaves_binary (op : Operator) (t u : Tree) :
    (binary op t u).unknownLeaves = t.unknownLeaves ++ u.unknownLeaves := by
  rw [binary, unknownLeaves_node, List.flatMap_cons, List.flatMap_singleton]
  rfl

end Tree

namespace Parse

variable {limits : Limits}

/-! ## Notes -/

/-- A rule fails with this event: an operator misses an operand, a parenthesis is not closed by the
last character, or an operand has no known form. -/
def Event.rejects : Event → Bool
  | missingOperand _ _ | notOneGroup _ | strangeOperand _ => true
  | keptLeaf _ | parsed _ _ | failed _ _ => false

/-- The events on the way to a result: a leaf is kept for each one without meaning, and where no
rule fits one event says so, behind those of the leaves which have been kept before. -/
inductive Notes : Except Reason Tree → List Event → Prop
  | tree (t : Tree) : Notes (.ok t) (t.unknownLeaves.map .keptLeaf)
  | noRule (kept : List String) {event : Event} (rejects : event.rejects) :
      Notes (.error .noRule) (kept.map .keptLeaf ++ [event])
  | tooDeep (kept : List String) (limit : Nat) :
      Notes (.error (.tooDeep limit)) (kept.map .keptLeaf)

theorem Notes.trace {result : Except Reason Tree} {notes : List Event} (h : Notes result notes) :
    ∀ event ∈ notes, event.entry.level = .trace := by
  have hkept : ∀ kept : List String, ∀ event ∈ kept.map Event.keptLeaf,
      event.entry.level = .trace := by
    intro kept
    rw [List.forall_mem_map]
    intro _ _
    rfl
  cases h with
  | tree t => exact hkept _
  | @noRule kept event rejects =>
    rw [List.forall_mem_append, List.forall_mem_singleton]
    refine ⟨hkept kept, ?_⟩
    cases event with
    | missingOperand | notOneGroup | strangeOperand => rfl
    | keptLeaf | parsed | failed => cases rejects
  | tooDeep kept => exact hkept kept

/-- What fails behind kept leaves fails with them before its own. -/
theorem Notes.behind {reason : Reason} {notes : List Event} (h : Notes (.error reason) notes)
    (kept : List String) : Notes (.error reason) (kept.map .keptLeaf ++ notes) := by
  cases h with
  | noRule kept' rejects =>
    rw [← List.append_assoc, ← List.map_append]
    exact .noRule (kept ++ kept') rejects
  | tooDeep kept' limit =>
    rw [← List.map_append]
    exact .tooDeep (kept ++ kept') limit

theorem Notes.of_error {reason : Reason} {notes : List Event} (h : Notes (.error reason) notes) :
    (reason = .noRule → ∃ (kept : List String) (event : Event),
      event.rejects ∧ notes = kept.map .keptLeaf ++ [event]) ∧
    (∀ limit, reason = .tooDeep limit → ∃ kept : List String, notes = kept.map .keptLeaf) ∧
    ((∃ limit, reason = .tooLong limit) ∨ reason = .unbalanced → notes = []) := by
  cases h with
  | @noRule kept event rejects =>
    exact ⟨fun _ => ⟨kept, event, rejects, rfl⟩, nofun, by simp⟩
  | tooDeep kept limit => exact ⟨nofun, fun _ _ => ⟨kept, rfl⟩, by simp⟩

/-- The step adds the notes of its result to those which are there. -/
def TakesNotes (step : Attempt Tree) : Prop :=
  ∀ s, ∃ notes, (step s).2.events.toList = s.events.toList ++ notes ∧ Notes (step s).1 notes

/-! ## Steps -/

theorem takesNotes_pure {t : Tree} (h : t.unknownLeaves = []) : TakesNotes (pure t) := by
  intro s
  refine ⟨[], (List.append_nil _).symm, ?_⟩
  have hnotes := Notes.tree t
  rwa [h] at hnotes

theorem takesNotes_reject {event : Event} (h : event.rejects) : TakesNotes (reject event) :=
  fun _ => ⟨[event], Array.toList_push, .noRule [] h⟩

theorem takesNotes_leaf (text : List Char) : TakesNotes (leaf text) := by
  unfold leaf Maker.readLeaf
  split
  · exact takesNotes_pure (Tree.unknownLeaves_leaf _)
  · dsimp only
    split_ifs
    · exact takesNotes_pure rfl
    · exact fun s => ⟨_, Array.toList_push, .tree (.leaf (.unknown (String.ofList text)))⟩
    · exact takesNotes_reject rfl

theorem TakesNotes.deeper {step : Attempt Tree} (h : TakesNotes step) :
    TakesNotes (deeper limits step) := by
  intro s
  unfold Parse.deeper
  split
  · exact ⟨[], (List.append_nil _).symm, .tooDeep [] limits.depth⟩
  · exact h { s with depth := s.depth + 1 }

theorem TakesNotes.unary {step : Attempt Tree} (h : TakesNotes step) {label : Label}
    (hlabel : label.unknown? = none) : TakesNotes (Tree.unary label <$> step) := by
  intro s
  obtain ⟨notes, hevents, hnotes⟩ := h s
  rw [map_eq_pure_bind]
  rcases hstep : step s with ⟨reason | t, s'⟩
  · rw [hstep] at hevents hnotes
    rw [bind_of_error hstep]
    exact ⟨notes, hevents, hnotes⟩
  · rw [hstep] at hevents hnotes
    rw [bind_of_ok hstep]
    refine ⟨notes, hevents, ?_⟩
    cases hnotes with
    | tree =>
      have hnotes := Notes.tree (Tree.unary label t)
      rwa [Tree.unknownLeaves_unary, hlabel] at hnotes

/-- An operator's left side is parsed first, and so its leaves are noted first. -/
theorem TakesNotes.binary {left right : Attempt Tree} (hl : TakesNotes left)
    (hr : TakesNotes right) (op : Operator) :
    TakesNotes (do
      let l ← left
      let r ← right
      return .binary op l r) := by
  intro s
  obtain ⟨notes, hevents, hnotes⟩ := hl s
  rcases hleft : left s with ⟨reason | t, s'⟩
  · rw [hleft] at hevents hnotes
    rw [bind_of_error hleft]
    exact ⟨notes, hevents, hnotes⟩
  · rw [hleft] at hevents hnotes
    rw [bind_of_ok hleft]
    cases hnotes with
    | tree =>
      obtain ⟨notes', hevents', hnotes'⟩ := hr s'
      have hboth : (right s').2.events.toList =
          s.events.toList ++ (t.unknownLeaves.map .keptLeaf ++ notes') := by
        rw [hevents', hevents, List.append_assoc]
      rcases hright : right s' with ⟨reason | u, s''⟩
      · rw [hright] at hboth hnotes'
        rw [bind_of_error hright]
        exact ⟨_, hboth, hnotes'.behind t.unknownLeaves⟩
      · rw [hright] at hboth hnotes'
        rw [bind_of_ok hright]
        refine ⟨_, hboth, ?_⟩
        cases hnotes' with
        | tree =>
          rw [← List.map_append, ← Tree.unknownLeaves_binary op]
          exact .tree (.binary op t u)

/-! ## Rules -/

theorem takesNotes_descend (p : Option Precedence) (text : List Char) :
    TakesNotes (descend limits p text) := by
  induction 0, p, text using attempt_induction with
  | split depth p found text s h ihl ihr =>
    by_cases hs : s.left = [] ∨ s.right = []
    · rw [descend_of_missing_operand h hs]
      exact takesNotes_reject rfl
    · rw [descend_of_splitFrom?_eq_some h hs]
      exact ihl.binary ihr s.op
  | whole depth p text h ih =>
    rw [descend_of_splitFrom?_eq_none h]
    exact ih
  | log depth text inside h ih =>
    rw [descend_of_logArgument? h]
    exact ih.deeper.unary rfl
  | group depth text inside hl h ih =>
    rw [descend_of_groupInside? hl h]
    exact ih.deeper.unary rfl
  | leaf depth text hl h =>
    rw [descend_of_groupInside?_eq_none hl h]
    split
    · exact takesNotes_reject rfl
    · exact takesNotes_leaf text

theorem takesNotes_chain (text : List Char) : TakesNotes (chain limits [] .sum text) := by
  rw [(chain_eq_descend limits .sum text).1]
  exact takesNotes_descend _ _

/-! ## A whole parse -/

theorem reason_of_admit {text : List Char} {reason : Reason}
    (h : limits.admit text = .error reason) :
    reason = .tooLong limits.length ∨ reason = .unbalanced := by
  unfold Limits.admit at h
  split_ifs at h
  · exact .inl (Except.error.inj h).symm
  · exact .inr (Except.error.inj h).symm

/-- A parse, with whatever notes there are before it, adds some traces and behind them one event
for its end. If the text has a tree, the traces are one for each leaf without meaning, with the
leaf's text, from left to right. If no rule fits, the last of them and no other says that a rule
fails. If the text is too deep none does, and if it is too long or its parentheses are not balanced
there are none. -/
theorem parse_events (limits : Limits) (text : String) (s : State) :
    ∃ (notes : List Event) (last : Event),
      (parse limits text s).2.events.toList = s.events.toList ++ notes ++ [last] ∧
      (∀ event ∈ notes, event.entry.level = .trace) ∧ last.entry.level = .debug ∧
      (∀ t, (parse limits text s).1 = .ok t →
        notes = t.unknownLeaves.map .keptLeaf ∧
          last = .parsed (String.ofList (stripped text)) t.size) ∧
      ∀ failure, (parse limits text s).1 = .error failure →
        last = .failed failure.text failure.reason ∧
        (failure.reason = .noRule → ∃ (kept : List String) (event : Event),
          event.rejects ∧ notes = kept.map .keptLeaf ++ [event]) ∧
        (∀ limit, failure.reason = .tooDeep limit →
          ∃ kept : List String, notes = kept.map .keptLeaf) ∧
        ((∃ limit, failure.reason = .tooLong limit) ∨ failure.reason = .unbalanced →
          notes = []) := by
  cases hadmit : limits.admit (stripped text) with
  | error reason =>
    rw [parse_of_admit_eq_error hadmit]
    refine ⟨[], .failed (String.ofList (stripped text)) reason, ?_, nofun, rfl, nofun, ?_⟩
    · rw [List.append_nil]
      exact Array.toList_push
    · rintro _ ⟨rfl⟩
      refine ⟨rfl, ?_, ?_, fun _ => rfl⟩ <;>
        rcases reason_of_admit hadmit with rfl | rfl <;> nofun
  | ok =>
    have hsteps : TakesNotes (chain limits [] .sum (stripped text)) := takesNotes_chain _
    obtain ⟨notes, hevents, hnotes⟩ := hsteps { s with depth := 0 }
    rw [parse_of_admit_eq_ok hadmit]
    rcases hchain : chain limits [] .sum (stripped text) { s with depth := 0 } with ⟨reason | t, s'⟩
    · rw [hchain] at hevents hnotes
      refine ⟨notes, .failed (String.ofList (stripped text)) reason, ?_, hnotes.trace, rfl, nofun,
        ?_⟩
      · rw [← hevents]
        exact Array.toList_push
      · rintro _ ⟨rfl⟩
        exact ⟨rfl, hnotes.of_error⟩
    · rw [hchain] at hevents hnotes
      refine ⟨notes, .parsed (String.ofList (stripped text)) t.size, ?_, hnotes.trace, rfl, ?_,
        nofun⟩
      · rw [← hevents]
        exact Array.toList_push
      · rintro _ ⟨rfl⟩
        cases hnotes with
        | tree => exact ⟨rfl, rfl⟩

example : (parse {} "y + 2 * (z ^ )" {}).2.events.toList =
    [.keptLeaf "y", .missingOperand .power "z^", .failed "y+2*(z^)" .noRule] := by
  decide +kernel

end Parse

end Ordinate

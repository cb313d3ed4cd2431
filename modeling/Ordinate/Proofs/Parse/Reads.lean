import Ordinate.Proofs.Parse.Follows
import Ordinate.Proofs.Tree.Shape

/-!
# What a text reads as

* `Parse.KeepsLevel` : a step of a parser whose result depends on nothing but how many groups it is
  inside of;
* `Parse.chain_eq_join` : the links of a chain only go around the tree of the text behind them;
* `Parse.attempt_induction` : a property which texts have from their parts, as the rules take them
  apart, holds of every text;
* `Parse.Reads` : the trees of texts, with one rule for each case of the parser;
* `Parse.reads_iff` : a parser gives a tree exactly if the text reads as it;
* `Parse.WritesLeaf` : the labels of leaves and the texts which write them.
-/

namespace Ordinate.Parse

variable {limits : Limits} {β γ : Type}

/-! ## Levels -/

/-- The result of a step inside `depth` groups. -/
def resultAt (depth : Nat) (step : Attempt β) : Except Reason β :=
  (step { depth }).1

/-- The step keeps the level, and its result depends on nothing else of the state. -/
def KeepsLevel (step : Attempt β) : Prop :=
  ∀ s, (step s).1 = resultAt s.depth step ∧ (step s).2.depth = s.depth

theorem keepsLevel_pure (b : β) : KeepsLevel (pure b) := fun _ => ⟨rfl, rfl⟩

theorem keepsLevel_accept (event : Event) (b : β) : KeepsLevel (accept event b) :=
  fun _ => ⟨rfl, rfl⟩

theorem keepsLevel_reject (event : Event) : KeepsLevel (reject event : Attempt β) :=
  fun _ => ⟨rfl, rfl⟩

theorem bind_of_ok {m : Attempt β} {f : β → Attempt γ} {s s' : State} {b : β}
    (h : m s = (.ok b, s')) : (m >>= f) s = f b s' := by
  show ExceptT.bindCont f (m s).1 (m s).2 = _
  rw [h]
  rfl

theorem bind_of_error {m : Attempt β} {f : β → Attempt γ} {s s' : State} {reason : Reason}
    (h : m s = (.error reason, s')) : (m >>= f) s = (.error reason, s') := by
  show ExceptT.bindCont f (m s).1 (m s).2 = _
  rw [h]
  rfl

theorem resultAt_bind {m : Attempt β} {f : β → Attempt γ} (hm : KeepsLevel m)
    (hf : ∀ b, KeepsLevel (f b)) (depth : Nat) :
    resultAt depth (m >>= f) = resultAt depth m >>= fun b => resultAt depth (f b) := by
  unfold resultAt
  have hlevel := (hm { depth }).2
  rcases h : m { depth } with ⟨reason | b, s'⟩
  · rw [bind_of_error h]
    rfl
  · rw [h] at hlevel
    rw [bind_of_ok h, (hf b s').1, hlevel]
    rfl

theorem KeepsLevel.bind {m : Attempt β} {f : β → Attempt γ} (hm : KeepsLevel m)
    (hf : ∀ b, KeepsLevel (f b)) : KeepsLevel (m >>= f) := by
  intro s
  obtain ⟨hresult, hlevel⟩ := hm s
  rw [resultAt_bind hm hf, ← hresult]
  rcases h : m s with ⟨reason | b, s'⟩
  · rw [h] at hlevel
    rw [bind_of_error h]
    exact ⟨rfl, hlevel⟩
  · rw [h] at hlevel
    rw [bind_of_ok h, (hf b s').2]
    refine ⟨?_, hlevel⟩
    rw [(hf b s').1, hlevel]
    rfl

theorem resultAt_map {m : Attempt β} (hm : KeepsLevel m) (f : β → γ) (depth : Nat) :
    resultAt depth (f <$> m) = f <$> resultAt depth m := by
  rw [map_eq_pure_bind, map_eq_pure_bind, resultAt_bind hm fun b => keepsLevel_pure (f b)]
  rfl

theorem bind_eq_ok_iff {m : Except Reason β} {f : β → Except Reason γ} {c : γ} :
    (m >>= f) = .ok c ↔ ∃ b, m = .ok b ∧ f b = .ok c := by
  cases m with
  | error reason => exact ⟨nofun, fun ⟨_, h, _⟩ => nomatch h⟩
  | ok b => exact ⟨fun h => ⟨b, rfl, h⟩, fun ⟨_, h, h'⟩ => Except.ok.inj h ▸ h'⟩

theorem map_eq_ok_iff {m : Except Reason β} {f : β → γ} {c : γ} :
    f <$> m = .ok c ↔ ∃ b, m = .ok b ∧ f b = c := by
  rw [map_eq_pure_bind, bind_eq_ok_iff]
  exact exists_congr fun b => and_congr_right fun _ =>
    ⟨Except.ok.inj, fun h => congrArg Except.ok h⟩

theorem bind_eq_error_iff {m : Except Reason β} {f : β → Except Reason γ}
    {reason : Reason} :
    (m >>= f) = .error reason ↔ m = .error reason ∨ ∃ b, m = .ok b ∧ f b = .error reason := by
  cases m with
  | error reason' =>
    refine ⟨fun h => .inl (congrArg _ (Except.error.inj h)), ?_⟩
    rintro (h | ⟨_, h, _⟩)
    · exact congrArg _ (Except.error.inj h)
    · cases h
  | ok b =>
    refine ⟨fun h => .inr ⟨b, rfl, h⟩, ?_⟩
    rintro (h | ⟨_, h, h'⟩)
    · cases h
    · exact Except.ok.inj h ▸ h'

theorem map_eq_error_iff {m : Except Reason β} {f : β → γ} {reason : Reason} :
    f <$> m = .error reason ↔ m = .error reason := by
  cases m with
  | error reason' => exact ⟨fun h => congrArg _ (Except.error.inj h),
      fun h => congrArg _ (Except.error.inj h)⟩
  | ok b => exact ⟨nofun, nofun⟩

theorem resultAt_deeper (step : Attempt β) (depth : Nat) :
    resultAt depth (deeper limits step) =
      if limits.depth ≤ depth then .error (.tooDeep limits.depth)
      else resultAt (depth + 1) step := by
  unfold resultAt deeper
  split <;> rfl

theorem KeepsLevel.deeper {step : Attempt β} (h : KeepsLevel step) :
    KeepsLevel (deeper limits step) := by
  intro s
  obtain ⟨hresult, hlevel⟩ := h { s with depth := s.depth + 1 }
  rw [resultAt_deeper]
  unfold Parse.deeper
  split
  · exact ⟨rfl, rfl⟩
  · refine ⟨hresult, ?_⟩
    show (step { s with depth := s.depth + 1 }).2.depth - 1 = s.depth
    rw [hlevel]
    rfl

theorem keepsLevel_leaf (text : List Char) : KeepsLevel (leaf text) := by
  unfold leaf Maker.readLeaf
  split
  · exact keepsLevel_pure _
  dsimp only
  split_ifs
  · exact keepsLevel_pure _
  · exact keepsLevel_accept _ _
  · exact keepsLevel_reject _

theorem follows_keepsLevel (limits : Limits) :
    Follows (rules limits) id limits (fun step _ => KeepsLevel step) fun _ => True where
  pure := keepsLevel_pure
  bind h hk := h.bind hk
  splitFrom? _ _ := rfl
  logArgument? _ := rfl
  groupInside? _ := rfl
  leaf := keepsLevel_leaf
  reject := keepsLevel_reject
  deeper h := h.deeper
  unary _ _ := rfl
  binary _ _ _ := rfl
  sides _ _ := ⟨trivial, trivial⟩
  argument _ _ := trivial
  inside _ _ := trivial

theorem keepsLevel_operand (text : List Char) : KeepsLevel (operand limits text) :=
  (follows_keepsLevel limits).operand trivial

theorem keepsLevel_chain (links : Links) (p : Precedence) (text : List Char) :
    KeepsLevel (chain limits links p text) :=
  (follows_keepsLevel limits).chain_id trivial links p

theorem keepsLevel_leftSide (p : Precedence) (text : List Char) :
    KeepsLevel (leftSide limits p text) := by
  rw [leftSide_eq]
  cases p.tighter with
  | some next => exact keepsLevel_chain _ _ _
  | none => exact keepsLevel_operand text

/-! ## Links -/

theorem chain_eq_join (links : Links) (p : Precedence) (text : List Char) :
    chain limits links p text = links.join <$> chain limits [] p text := by
  induction text using induction_on_length generalizing links p with
  | step text ih =>
    cases h : p.splitFrom? text with
    | none =>
      rw [chain_of_splitFrom?_eq_none h, chain_of_splitFrom?_eq_none h, Functor.map_map]
      rfl
    | some split =>
      obtain ⟨found, s⟩ := split
      by_cases hs : s.left = [] ∨ s.right = []
      · rw [chain_of_missing_operand h hs, chain_of_missing_operand h hs]
        rfl
      · -- One more link is around the right side, whose own tree has none.
        rw [chain_of_splitFrom?_eq_some h hs, chain_of_splitFrom?_eq_some h hs, map_bind]
        refine bind_congr fun left => ?_
        have hright := length_right_lt h
        rw [ih _ hright, ih _ hright [(left, s.op)], Functor.map_map]
        rfl

/-- The tree of a chain from the trees on the two sides of its first split. -/
theorem resultAt_chain_of_splitFrom?_eq_some {p found : Precedence} {s : Split}
    {text : List Char} (h : p.splitFrom? text = some (found, s))
    (hs : ¬(s.left = [] ∨ s.right = [])) (depth : Nat) :
    resultAt depth (chain limits [] p text) = do
      let left ← resultAt depth (leftSide limits found s.left)
      let right ← resultAt depth (chain limits [] .sum s.right)
      return .binary s.op left right := by
  rw [chain_of_splitFrom?_eq_some h hs,
    resultAt_bind (keepsLevel_leftSide _ _) fun left => keepsLevel_chain _ _ _]
  refine bind_congr fun left => ?_
  rw [chain_eq_join, resultAt_map (keepsLevel_chain _ _ _)]
  rfl

/-! ## Attempts -/

/-- The attempt on a text which may split at the operators of a precedence, or at none. -/
def attempt (limits : Limits) : Option Precedence → List Char → Attempt Tree
  | some p, text => chain limits [] p text
  | none, text => operand limits text

theorem leftSide_eq_attempt (p : Precedence) (text : List Char) :
    leftSide limits p text = attempt limits p.tighter text := by
  rw [leftSide_eq]
  cases p.tighter <;> rfl

/-- A property holds of every text which texts have from their parts: from the sides of a split,
from the text as an operand, and from the inside of a logarithm or a group. -/
@[elab_as_elim]
theorem attempt_induction {P : Nat → Option Precedence → List Char → Prop}
    (split : ∀ (depth : Nat) (p found : Precedence) (text : List Char) (s : Split),
      p.splitFrom? text = some (found, s) → P depth found.tighter s.left →
        P depth (some .sum) s.right → P depth (some p) text)
    (whole : ∀ (depth : Nat) (p : Precedence) (text : List Char), p.splitFrom? text = none →
      P depth none text → P depth (some p) text)
    (log : ∀ (depth : Nat) (text inside : List Char), logArgument? text = some inside →
      P (depth + 1) (some .sum) inside → P depth none text)
    (group : ∀ (depth : Nat) (text inside : List Char), logArgument? text = none →
      groupInside? text = some inside → P (depth + 1) (some .sum) inside → P depth none text)
    (leaf : ∀ (depth : Nat) (text : List Char), logArgument? text = none →
      groupInside? text = none → P depth none text)
    (depth : Nat) (p : Option Precedence) (text : List Char) : P depth p text := by
  induction text using induction_on_length generalizing depth p with
  | step text ih =>
    have hoperand : P depth none text := by
      cases hl : logArgument? text with
      | some inside =>
        exact log depth text inside hl (ih inside (length_lt_of_logArgument? hl) _ _)
      | none =>
        cases hg : groupInside? text with
        | some inside =>
          exact group depth text inside hl hg (ih inside (length_lt_of_groupInside? hg) _ _)
        | none => exact leaf depth text hl hg
    cases p with
    | none => exact hoperand
    | some p =>
      cases hs : p.splitFrom? text with
      | none => exact whole depth p text hs hoperand
      | some first =>
        exact split depth p first.1 text first.2 hs (ih _ (length_left_lt hs) _ _)
          (ih _ (length_right_lt hs) _ _)

theorem resultAt_of_splitFrom?_eq_none {p : Precedence} {text : List Char}
    (h : p.splitFrom? text = none) (depth : Nat) :
    resultAt depth (attempt limits (some p) text) = resultAt depth (attempt limits none text) := by
  rw [attempt, attempt, chain_of_splitFrom?_eq_none h, resultAt_map (keepsLevel_operand text)]
  exact id_map _

theorem resultAt_of_logArgument? {text inside : List Char} (h : logArgument? text = some inside)
    (depth : Nat) :
    resultAt depth (attempt limits none text) =
      if limits.depth ≤ depth then .error (.tooDeep limits.depth)
      else Tree.unary .log <$> resultAt (depth + 1) (attempt limits (some .sum) inside) := by
  rw [attempt, attempt, operand_of_logArgument? h, resultAt_map (keepsLevel_chain _ _ _).deeper,
    resultAt_deeper]
  split <;> rfl

theorem resultAt_of_groupInside? {text inside : List Char} (hl : logArgument? text = none)
    (h : groupInside? text = some inside) (depth : Nat) :
    resultAt depth (attempt limits none text) =
      if limits.depth ≤ depth then .error (.tooDeep limits.depth)
      else Tree.unary .group <$> resultAt (depth + 1) (attempt limits (some .sum) inside) := by
  rw [attempt, attempt, operand_of_groupInside? hl h, resultAt_map (keepsLevel_chain _ _ _).deeper,
    resultAt_deeper]
  split <;> rfl

theorem resultAt_of_splitFrom?_eq_some {p found : Precedence} {text : List Char} {s : Split}
    (h : p.splitFrom? text = some (found, s)) (depth : Nat) :
    resultAt depth (attempt limits (some p) text) =
      if s.left = [] ∨ s.right = [] then .error .noRule
      else do
        let left ← resultAt depth (attempt limits found.tighter s.left)
        let right ← resultAt depth (attempt limits (some .sum) s.right)
        return .binary s.op left right := by
  split
  · next hs =>
    rw [attempt, chain_of_missing_operand h hs]
    rfl
  · next hs =>
    rw [attempt, resultAt_chain_of_splitFrom?_eq_some h hs, leftSide_eq_attempt]
    rfl

/-! ## Readings -/

/-- The text reads as the tree inside `depth` groups, where it may split at the operators of a
precedence and of all tighter ones, or at none. -/
inductive Reads (limits : Limits) : Nat → Option Precedence → List Char → Tree → Prop
  | split {depth : Nat} {p found : Precedence} {text : List Char} {s : Split} {left right : Tree}
      (split : p.splitFrom? text = some (found, s))
      (left_ne : s.left ≠ []) (right_ne : s.right ≠ [])
      (reads_left : Reads limits depth found.tighter s.left left)
      (reads_right : Reads limits depth (some .sum) s.right right) :
      Reads limits depth (some p) text (.binary s.op left right)
  | whole {depth : Nat} {p : Precedence} {text : List Char} {t : Tree}
      (split : p.splitFrom? text = none) (reads : Reads limits depth none text t) :
      Reads limits depth (some p) text t
  | log {depth : Nat} {text inside : List Char} {t : Tree} (log : logArgument? text = some inside)
      (depth_lt : depth < limits.depth) (reads : Reads limits (depth + 1) (some .sum) inside t) :
      Reads limits depth none text (.unary .log t)
  | group {depth : Nat} {text inside : List Char} {t : Tree} (log : logArgument? text = none)
      (group : groupInside? text = some inside) (depth_lt : depth < limits.depth)
      (reads : Reads limits (depth + 1) (some .sum) inside t) :
      Reads limits depth none text (.unary .group t)
  | leaf {depth : Nat} {text : List Char} {t : Tree} (log : logArgument? text = none)
      (head : text.head? ≠ some '(') (leaf : resultAt depth (leaf text) = .ok t) :
      Reads limits depth none text t

theorem Reads.resultAt_eq {depth : Nat} {p : Option Precedence} {text : List Char} {t : Tree}
    (h : Reads limits depth p text t) : resultAt depth (attempt limits p text) = .ok t := by
  induction h with
  | split split left_ne right_ne _ _ ihl ihr =>
    rw [resultAt_of_splitFrom?_eq_some split, if_neg (by simp [left_ne, right_ne]), ihl, ihr]
    rfl
  | whole split _ ih => rw [resultAt_of_splitFrom?_eq_none split, ih]
  | log log depth_lt _ ih =>
    rw [resultAt_of_logArgument? log, if_neg (Nat.not_le.2 depth_lt), ih]
    rfl
  | group log group depth_lt _ ih =>
    rw [resultAt_of_groupInside? log group, if_neg (Nat.not_le.2 depth_lt), ih]
    rfl
  | leaf log head leaf => rw [attempt, operand_of_head?_ne log head, leaf]

theorem reads_of_resultAt {depth : Nat} {p : Option Precedence} {text : List Char} {t : Tree}
    (h : resultAt depth (attempt limits p text) = .ok t) : Reads limits depth p text t := by
  induction depth, p, text using attempt_induction generalizing t with
  | split depth p found text s hs ihl ihr =>
    rw [resultAt_of_splitFrom?_eq_some hs] at h
    split at h
    · cases h
    · next hsides =>
      rw [not_or] at hsides
      obtain ⟨left, hl, h⟩ := bind_eq_ok_iff.1 h
      obtain ⟨right, hr, h⟩ := bind_eq_ok_iff.1 h
      cases h
      exact .split hs hsides.1 hsides.2 (ihl hl) (ihr hr)
  | whole depth p text hs ih =>
    rw [resultAt_of_splitFrom?_eq_none hs] at h
    exact .whole hs (ih h)
  | log depth text inside hl ih =>
    rw [resultAt_of_logArgument? hl] at h
    split at h
    · cases h
    · next hdepth =>
      obtain ⟨u, hu, rfl⟩ := map_eq_ok_iff.1 h
      exact .log hl (Nat.lt_of_not_le hdepth) (ih hu)
  | group depth text inside hl hg ih =>
    rw [resultAt_of_groupInside? hl hg] at h
    split at h
    · cases h
    · next hdepth =>
      obtain ⟨u, hu, rfl⟩ := map_eq_ok_iff.1 h
      exact .group hl hg (Nat.lt_of_not_le hdepth) (ih hu)
  | leaf depth text hl hg =>
    by_cases hp : text.head? = some '('
    · rw [attempt, operand_of_head?_eq hl hp hg] at h
      cases h
    · rw [attempt, operand_of_head?_ne hl hp] at h
      exact .leaf hl hp h

theorem reads_iff {depth : Nat} {p : Precedence} {text : List Char} {t : Tree} :
    Reads limits depth (some p) text t ↔ resultAt depth (chain limits [] p text) = .ok t :=
  ⟨Reads.resultAt_eq, fun h => reads_of_resultAt (p := some p) h⟩

/-! ## The trees which are read -/

theorem ne_paren_of_isWord {text : List Char} (h : isWord text) : ∀ c ∈ text, c ≠ '(' ∧ c ≠ ')' := by
  intro c hc
  rw [isWord, Bool.and_eq_true, Bool.not_eq_true', List.any_eq_false] at h
  simpa using h.2 c hc

theorem ne_nil_of_isWord {text : List Char} (h : isWord text) : text ≠ [] := by
  rintro rfl
  cases h

/-- The label of the leaf which a text writes. -/
inductive WritesLeaf : List Char → Label → Prop
  | literal {text : List Char} {v : Float} (read : Literal.read text = some v) :
      WritesLeaf text (.ofFloat v)
  | var : WritesLeaf ['x'] .var
  | unknown {text : List Char} (read : Literal.read text = none) (ne : text ≠ ['x'])
      (word : isWord text) : WritesLeaf text (.unknown (String.ofList text))

theorem resultAt_leaf_eq_ok_iff {depth : Nat} {text : List Char} {t : Tree} :
    resultAt depth (leaf text) = .ok t ↔ ∃ label, t = .leaf label ∧ WritesLeaf text label := by
  constructor
  · intro h
    unfold leaf Maker.readLeaf at h
    split at h
    · next v hv =>
      cases h
      exact ⟨_, rfl, .literal hv⟩
    · next hv =>
      dsimp only at h
      split_ifs at h with hx hword
      · cases h
        exact ⟨_, rfl, hx ▸ .var⟩
      · cases h
        exact ⟨_, rfl, .unknown hv hx hword⟩
      · cases h
  · rintro ⟨_, rfl, hread | _ | ⟨hread, hne, hword⟩⟩
    · unfold leaf Maker.readLeaf
      rw [hread]
      rfl
    · rfl
    · unfold leaf Maker.readLeaf
      rw [hread]
      dsimp only
      rw [if_neg hne, if_pos hword]
      rfl

theorem exists_leaf_of_resultAt {depth : Nat} {text : List Char} {t : Tree}
    (h : resultAt depth (leaf text) = .ok t) :
    ∃ label : Label, t = .leaf label ∧ label.arity = 0 := by
  obtain ⟨label, rfl, hlabel⟩ := resultAt_leaf_eq_ok_iff.1 h
  refine ⟨label, rfl, ?_⟩
  cases hlabel <;> rfl

theorem Reads.saturated {depth : Nat} {p : Option Precedence} {text : List Char} {t : Tree}
    (h : Reads limits depth p text t) : t.Saturated := by
  induction h with
  | split _ _ _ _ _ ihl ihr => exact Tree.saturated_binary.2 ⟨ihl, ihr⟩
  | whole _ _ ih => exact ih
  | log _ _ _ ih => exact Tree.saturated_unary.2 ⟨rfl, ih⟩
  | group _ _ _ _ ih => exact Tree.saturated_unary.2 ⟨rfl, ih⟩
  | leaf _ _ leaf =>
    obtain ⟨label, rfl, harity⟩ := exists_leaf_of_resultAt leaf
    exact Tree.saturated_leaf.2 harity

end Ordinate.Parse

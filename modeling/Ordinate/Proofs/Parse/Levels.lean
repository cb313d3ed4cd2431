import Mathlib.Data.List.Chain
import Ordinate.Proofs.Parse.Noted

/-!
# The levels of a parser

A parser counts how many groups and logarithms it is inside of. Here each value of that count is
written down on the way.

* `Parse.Tracked` : a step of a parser with a record of the levels it has gone to;
* `Parse.Tracked.chain`, `Parse.Tracked.operand` : the rules of the parser, with such a record;
* `Parse.RoundTrips` : levels which lead into groups and back again, within a limit;
* `Parse.Returns` : without its record a step is the one it is given for, and with it the step makes
  round trips from the level on which it starts;
* `Parse.levels_restored` : the rules are such steps, so that a parser can be used again.
-/

namespace Ordinate.Parse

variable {limits : Limits} {β γ : Type}

/-- A step of a parser with a record of the levels it has gone to, in order. -/
abbrev Tracked : Type → Type :=
  ExceptT Reason (StateM (State × List Nat))

namespace Tracked

def ofAttempt (step : Attempt β) : Tracked β := fun (s, levels) =>
  let (result, s') := step s
  (result, s', levels)

/-- Take a step one level deeper, and leave the level again whether or not the step fails. The level
is written down both times when it changes. -/
def deeper (limits : Limits) (step : Tracked Tree) : Tracked Tree := fun (s, levels) =>
  if limits.depth ≤ s.depth then (.error (.tooDeep limits.depth), s, levels)
  else
    let inner := s.depth + 1
    let (result, s', levels') := step ({ s with depth := inner }, levels ++ [inner])
    let outer := s'.depth - 1
    (result, { s' with depth := outer }, levels' ++ [outer])

def rules (limits : Limits) : Rules Tracked Tree :=
  (Parse.rules limits).lift ofAttempt (deeper limits)

def chain (limits : Limits) (links : Links) (p : Precedence) (text : List Char) : Tracked Tree :=
  (rules limits).chain links p text

def operand (limits : Limits) (text : List Char) : Tracked Tree :=
  (rules limits).operand text

end Tracked

/-! ## Round trips -/

def Adjacent (level next : Nat) : Prop :=
  next = level + 1 ∨ level = next + 1

/-- Levels which lead from `level` into groups and back to it, one group after the other, where none
is beyond the limit. -/
inductive RoundTrips (limit : Nat) : Nat → List Nat → Prop
  | stay (level : Nat) : RoundTrips limit level []
  | trip {level : Nat} {inside behind : List Nat} (lt : level < limit)
      (trips_inside : RoundTrips limit (level + 1) inside)
      (trips_behind : RoundTrips limit level behind) :
      RoundTrips limit level ((level + 1) :: (inside ++ level :: behind))

namespace RoundTrips

variable {limit level : Nat} {visited visited' : List Nat}

theorem append (h : RoundTrips limit level visited) (h' : RoundTrips limit level visited') :
    RoundTrips limit level (visited ++ visited') := by
  induction h with
  | stay => exact h'
  | trip lt trips_inside _ _ ih =>
    rw [List.cons_append, List.append_assoc, List.cons_append]
    exact .trip lt trips_inside (ih h')

theorem around (lt : level < limit) (h : RoundTrips limit (level + 1) visited) :
    RoundTrips limit level ((level + 1) :: (visited ++ [level])) :=
  .trip lt h (.stay level)

theorem within (h : RoundTrips limit level visited) :
    ∀ l ∈ visited, level ≤ l ∧ l ≤ limit := by
  induction h with
  | stay => nofun
  | @trip level inside behind lt _ _ ih_inside ih_behind =>
    intro l hl
    rcases List.mem_cons.1 hl with rfl | hl
    · omega
    rcases List.mem_append.1 hl with hl | hl
    · have := ih_inside l hl
      omega
    rcases List.mem_cons.1 hl with rfl | hl
    · omega
    · exact ih_behind l hl

theorem getLast?_eq (h : RoundTrips limit level visited) :
    (level :: visited).getLast? = some level := by
  induction h with
  | stay => rfl
  | trip _ _ _ _ ih_behind =>
    rw [← List.cons_append, ← List.cons_append, List.getLast?_append, ih_behind, Option.some_or]

theorem isChain (h : RoundTrips limit level visited) : (level :: visited).IsChain Adjacent := by
  induction h with
  | stay => exact .singleton _
  | @trip level inside behind _ trips_inside _ ih_inside ih_behind =>
    rw [← List.cons_append, ← List.cons_append, List.isChain_append, List.isChain_cons_cons]
    refine ⟨⟨.inl rfl, ih_inside⟩, ih_behind, ?_⟩
    rw [List.getLast?_cons_cons, trips_inside.getLast?_eq, List.head?_cons]
    rintro _ ⟨rfl⟩ _ ⟨rfl⟩
    exact .inr rfl

end RoundTrips

/-! ## Steps which return -/

/-- Without its record the step `tracked` is `step`; it ends, with a result or a reason, on the
level on which it starts, and the record has round trips from there. -/
def Returns (limits : Limits) (tracked : Tracked β) (step : Attempt β) : Prop :=
  ∀ (s : State) (levels : List Nat), ∃ visited : List Nat,
    tracked (s, levels) = ((step s).1, (step s).2, levels ++ visited) ∧
      (step s).2.depth = s.depth ∧ RoundTrips limits.depth s.depth visited

theorem returns_ofAttempt {step : Attempt β} (h : KeepsLevel step) :
    Returns limits (Tracked.ofAttempt step) step := by
  intro s levels
  refine ⟨[], ?_, (h s).2, .stay _⟩
  rw [List.append_nil]
  rfl

theorem returns_pure (b : β) : Returns limits (pure b) (pure b) :=
  returns_ofAttempt (keepsLevel_pure b)

theorem Returns.bind {tracked : Tracked β} {step : Attempt β} {f : β → Tracked γ}
    {g : β → Attempt γ} (h : Returns limits tracked step)
    (hf : ∀ b, Returns limits (f b) (g b)) : Returns limits (tracked >>= f) (step >>= g) := by
  intro s levels
  obtain ⟨visited, hrun, hlevel, htrips⟩ := h s levels
  show ∃ visited, ExceptT.bindCont f (tracked (s, levels)).1 (tracked (s, levels)).2 = _ ∧ _
  rw [hrun]
  rcases hstep : step s with ⟨reason | b, s'⟩
  · rw [hstep] at hlevel
    rw [bind_of_error hstep]
    exact ⟨visited, rfl, hlevel, htrips⟩
  · rw [hstep] at hlevel
    rw [bind_of_ok hstep]
    obtain ⟨visited', hrun', hlevel', htrips'⟩ := hf b s' (levels ++ visited)
    dsimp only at hlevel
    rw [hlevel] at hlevel' htrips'
    refine ⟨visited ++ visited', ?_, hlevel', htrips.append htrips'⟩
    rw [← List.append_assoc, ← hrun']
    rfl

theorem Returns.deeper {tracked : Tracked Tree} {step : Attempt Tree}
    (h : Returns limits tracked step) :
    Returns limits (Tracked.deeper limits tracked) (deeper limits step) := by
  intro s levels
  unfold Tracked.deeper Parse.deeper
  dsimp only
  by_cases hlimit : limits.depth ≤ s.depth
  · rw [if_pos hlimit, if_pos hlimit]
    exact ⟨[], by rw [List.append_nil], rfl, .stay _⟩
  · rw [if_neg hlimit, if_neg hlimit]
    obtain ⟨visited, hrun, hlevel, htrips⟩ :=
      h { s with depth := s.depth + 1 } (levels ++ [s.depth + 1])
    rcases hstep : step { s with depth := s.depth + 1 } with ⟨result, s'⟩
    rw [hstep] at hrun hlevel
    rw [hrun]
    dsimp only at hlevel htrips ⊢
    rw [hlevel, Nat.add_sub_cancel]
    refine ⟨(s.depth + 1) :: (visited ++ [s.depth]), ?_, rfl, .around (by omega) htrips⟩
    rw [List.append_assoc, List.append_assoc]
    rfl

/-! ## The rules -/

theorem follows_returns (limits : Limits) :
    Follows (Tracked.rules limits) id limits (Returns limits) fun _ => True where
  pure := returns_pure
  bind h hk := h.bind hk
  splitFrom? _ _ := rfl
  logArgument? _ := rfl
  groupInside? _ := rfl
  leaf text := returns_ofAttempt (keepsLevel_leaf text)
  reject event := returns_ofAttempt (keepsLevel_reject event)
  deeper h := h.deeper
  unary _ _ := rfl
  binary _ _ _ := rfl
  sides _ _ := ⟨trivial, trivial⟩
  argument _ _ := trivial
  inside _ _ := trivial

theorem returns_chain (links : Links) (p : Precedence) (text : List Char) :
    Returns limits (Tracked.chain limits links p text) (chain limits links p text) :=
  (follows_returns limits).chain_id trivial links p

/-- The rules of the parser, each with a record of its levels and without. -/
inductive Tracks (limits : Limits) : Tracked Tree → Attempt Tree → Prop
  | chain (links : Links) (p : Precedence) (text : List Char) :
      Tracks limits (Tracked.chain limits links p text) (chain limits links p text)
  | operand (text : List Char) :
      Tracks limits (Tracked.operand limits text) (operand limits text)
  | inside (text : List Char) :
      Tracks limits (Tracked.deeper limits (Tracked.chain limits [] .sum text))
        (deeper limits (chain limits [] .sum text))

theorem Tracks.returns {tracked : Tracked Tree} {step : Attempt Tree}
    (h : Tracks limits tracked step) : Returns limits tracked step := by
  cases h with
  | chain links p text => exact returns_chain links p text
  | operand text => exact (follows_returns limits).operand trivial
  | inside text => exact (returns_chain [] .sum text).deeper

/-! ## Parsers which have been used -/

/-- What a parser has been given before does not matter for a text, and behind the text it is outside
all groups. -/
theorem parse_keepsLevel (text : String) (s : State) :
    (parse limits text s).1 = (parse limits text {}).1 ∧ (parse limits text s).2.depth = 0 := by
  cases hadmit : limits.admit (stripped text) with
  | error reason =>
    rw [parse_of_admit_eq_error hadmit, parse_of_admit_eq_error hadmit]
    exact ⟨rfl, rfl⟩
  | ok =>
    have hkeeps : KeepsLevel (chain limits [] .sum (stripped text)) := keepsLevel_chain _ _ _
    obtain ⟨hresult, hlevel⟩ := hkeeps { s with depth := 0 }
    rw [parse_of_admit_eq_ok hadmit, parse_of_admit_eq_ok hadmit]
    rcases hused : chain limits [] .sum (stripped text) { s with depth := 0 } with ⟨r, s'⟩
    rcases hfresh : chain limits [] .sum (stripped text) {} with ⟨r', s''⟩
    have hsame : r = r' := by
      rw [hused] at hresult
      exact hresult.trans (congrArg Prod.fst hfresh)
    rw [hused] at hlevel
    subst hsame
    cases r with
    | error reason => exact ⟨rfl, hlevel⟩
    | ok t => exact ⟨rfl, hlevel⟩

/-- Texts which one parser is given one after the other have the results which each has alone. -/
theorem mapM_parse (texts : List String) (s : State) :
    (texts.mapM (parse limits) s).1 = texts.map fun text => (parse limits text {}).1 := by
  induction texts generalizing s with
  | nil => rfl
  | cons text texts ih =>
    rw [List.mapM_cons, List.map_cons, ← (parse_keepsLevel text s).1, ← ih (parse limits text s).2]
    rfl

theorem depth_mapM_parse (texts : List String) {s : State} (h : s.depth = 0) :
    (texts.mapM (parse limits) s).2.depth = 0 := by
  induction texts generalizing s with
  | nil => exact h
  | cons text texts ih =>
    rw [List.mapM_cons]
    exact ih (parse_keepsLevel text s).2

/-- A chain of operators, an operand, and what stands inside a group or a logarithm are parsed from
any level within the limit and back to that level, whether there is a tree or a reason from however
deep inside why there is none. On the way no level is beyond the limit, none is above the one
from which it starts, and each is next to the one before, so that the count never falls below zero.
So a parser which has been given texts, also such as have no tree, is outside all groups, and each of
the texts has the result which a new parser gives. -/
theorem levels_restored (limits : Limits) :
    (∀ (tracked : Tracked Tree) (step : Attempt Tree), Tracks limits tracked step →
      ∀ s : State, s.depth ≤ limits.depth → ∃ visited : List Nat,
        tracked (s, []) = ((step s).1, (step s).2, visited) ∧
        (step s).2.depth = s.depth ∧
        (s.depth :: visited).getLast? = some (step s).2.depth ∧
        (∀ level ∈ s.depth :: visited, s.depth ≤ level ∧ level ≤ limits.depth) ∧
        (s.depth :: visited).IsChain Adjacent) ∧
    ∀ texts : List String,
      (texts.mapM (parse limits) {}).1 = texts.map (fun text => (parse limits text {}).1) ∧
        (texts.mapM (parse limits) {}).2.depth = 0 := by
  refine ⟨fun tracked step hrule s hlimit => ?_, fun texts => ?_⟩
  · obtain ⟨visited, hrun, hlevel, htrips⟩ := hrule.returns s []
    refine ⟨visited, hrun, hlevel, ?_, ?_, htrips.isChain⟩
    · rw [hlevel]
      exact htrips.getLast?_eq
    · rw [List.forall_mem_cons]
      exact ⟨⟨Nat.le_refl _, hlimit⟩, htrips.within⟩
  · exact ⟨mapM_parse texts {}, depth_mapM_parse texts rfl⟩

/-- A product is parsed on the first of two levels. Its second factor is too deep, and the count is
back where it started. -/
theorem levels_restored_tooDeep :
    (chain { depth := 2 } [] .sum "(x)*((x))".toList { depth := 1 }).1 = .error (.tooDeep 2) ∧
      (chain { depth := 2 } [] .sum "(x)*((x))".toList { depth := 1 }).2.depth = 1 ∧
      (Tracked.chain { depth := 2 } [] .sum "(x)*((x))".toList ({ depth := 1 }, [])).2.2 =
        [2, 1, 2, 1] ∧
      (∀ level ∈ [1, 2, 1, 2, 1], 1 ≤ level ∧ level ≤ 2) ∧
      (["((x))", "x"].mapM (parse { depth := 1 }) {}).1 =
        [(parse { depth := 1 } "((x))" {}).1, (parse { depth := 1 } "x" {}).1] := by
  have hresult : (chain { depth := 2 } [] .sum "(x)*((x))".toList { depth := 1 }).1 =
      .error (.tooDeep 2) := by decide +kernel
  have hvisited : (Tracked.chain { depth := 2 } [] .sum "(x)*((x))".toList
      ({ depth := 1 }, [])).2.2 = [2, 1, 2, 1] := by decide +kernel
  obtain ⟨visited, hrun, hlevel, -, hwithin, -⟩ := (levels_restored { depth := 2 }).1 _ _
    (.chain [] .sum "(x)*((x))".toList) { depth := 1 } (by decide)
  have hrecord : visited = [2, 1, 2, 1] := by
    rw [hrun] at hvisited
    exact hvisited
  rw [hrecord] at hwithin
  exact ⟨hresult, hlevel, hvisited, hwithin, ((levels_restored { depth := 1 }).2 _).1⟩

end Ordinate.Parse

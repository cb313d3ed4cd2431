import Mathlib.Data.List.Forall2
import Ordinate.Derivative.InPlace
import Ordinate.Expression.Text
import Ordinate.Proofs.Expression.Walk
import Ordinate.Proofs.Tree.Value

/-!
# Recursion over children

The library's recursions pass over links which do not lead to a later node. Here a recursion follows
the stored children as they are, and has no result where that leads nowhere or in a circle.

* `Expression.Yields` : the recursion from a node ends with a result;
* `Expression.Linked.yields_iff` : where links are sound it does from every node, with the one
  result of `Expression.fold`;
* `Expression.visit` : a recursion by a rule for labels, which `Expression.Linked.yields_visit` joins
  to the function on trees for which the rule is an equation;
* `Expression.copyRule` and its siblings : the rules of the library's recursions, and by
  `Expression.Linked.yields_copy` and its siblings what they make of a node.
-/

namespace Ordinate.Expression

universe u

variable {e : Expression}

/-- The recursion over the stored children which makes the result of a node with `f` from those of
its children ends, from the place with the number `i`, with the result `b`. -/
inductive Yields {β : Type u} (e : Expression) (f : e.Place → List β → β) : Nat → β → Prop
  | node (p : e.Place) {results : List β}
      (children : List.Forall₂ (Yields e f) (e.node p).children results) :
      Yields e f p.val (f p results)

section Yields

variable {β : Type u} {f : e.Place → List β → β}

theorem yields_val_iff {p : e.Place} {b : β} :
    e.Yields f p.val b ↔
      ∃ results, List.Forall₂ (e.Yields f) (e.node p).children results ∧ b = f p results := by
  constructor
  · generalize hi : p.val = i
    rintro ⟨q, h⟩
    obtain rfl : p = q := Fin.ext hi
    exact ⟨_, h, rfl⟩
  · rintro ⟨results, h, rfl⟩
    exact .node p h

/-- Where links are sound, a recursion over the stored children ends from every node, and its only
result is that of `Expression.fold`. -/
theorem Linked.yields_iff (he : e.Linked) {p : e.Place} {b : β} :
    e.Yields f p.val b ↔ b = e.fold f p := by
  induction p using induction_on_children generalizing b with
  | step p ih =>
    rw [yields_val_iff, fold_eq, ← he.map_val_children]
    constructor
    · rintro ⟨results, h, rfl⟩
      rw [List.forall₂_map_left_iff] at h
      have hresults : List.Forall₂ Eq ((e.children p).map (e.fold f)) results := by
        rw [List.forall₂_map_left_iff]
        refine List.forall₂_iff_zip.2 ⟨h.length_eq, fun hmem => ?_⟩
        exact ((ih _ (List.of_mem_zip hmem).1).1 (List.forall₂_zip h hmem)).symm
      rw [List.forall₂_eq_eq_eq] at hresults
      rw [hresults]
    · rintro rfl
      refine ⟨_, ?_, rfl⟩
      rw [List.forall₂_map_left_iff, List.forall₂_map_right_iff, List.forall₂_same]
      exact fun c hc => (ih c hc).2 rfl

theorem Linked.yields_fold (he : e.Linked) (f : e.Place → List β → β) (p : e.Place) :
    e.Yields f p.val (e.fold f p) :=
  he.yields_iff.2 rfl

end Yields

section Rules

variable {β : Type u}

/-- What a recursion does at a node if it follows a rule which looks at the node's context and label
and at the trees below it. -/
def visit (e : Expression) (rule : Option Label → Label → List Tree → List β → β) (p : e.Place) :
    List β → β :=
  rule (e.context p) (e.label p) ((e.children p).map e.subtree)

/-- A function on trees in their contexts, for which the rule is an equation, is what the recursion
by that rule makes of the nodes of an expression. -/
theorem Linked.yields_visit (he : e.Linked) {rule : Option Label → Label → List Tree → List β → β}
    {g : Option Label → Tree → β}
    (hg : ∀ context label ts, g context (.node label ts) =
      rule context label ts (ts.map (g (some label)))) (p : e.Place) :
    e.Yields (e.visit rule) p.val (g (e.context p) (e.subtree p)) := by
  rw [he.yields_iff]
  induction p using induction_on_children with
  | step p ih =>
    have hresults : (e.children p).map (e.fold (e.visit rule)) =
        ((e.children p).map e.subtree).map (g (some (e.label p))) := by
      rw [List.map_map]
      apply List.map_congr_left
      intro c hc
      rw [← ih c hc, he.context_of_mem hc, Function.comp]
    rw [subtree_eq, hg, fold_eq, hresults, visit]

end Rules

/-! ## Values and copies -/

def valueRule {α : Type u} (A : Arithmetic α) (x : α) (context : Option Label) (label : Label)
    (_ : List Tree) (values : List α) : α :=
  A.nodeValue x context label values

theorem Linked.yields_evaluate (he : e.Linked) {α : Type u} (A : Arithmetic α) (x : α)
    (p : e.Place) : e.Yields (e.visit (valueRule A x)) p.val (e.evaluate A x p) :=
  he.yields_fold _ p

def copyRule (_ : Option Label) (label : Label) (_ : List Tree) (copies : List Expression) :
    Expression :=
  copies.foldl graftAtRoot (single label)

theorem graftTrees_eq_foldl (e : Expression) (ts : List Tree) :
    e.graftTrees ts = (ts.map ofTree).foldl graftAtRoot e := by
  induction ts generalizing e with
  | nil => rfl
  | cons t ts ih => rw [graftTrees, ih, List.map_cons, List.foldl_cons]

theorem ofTree_node (label : Label) (ts : List Tree) :
    ofTree (.node label ts) = (ts.map ofTree).foldl graftAtRoot (single label) := by
  rw [ofTree, graftTrees_eq_foldl]

theorem Linked.yields_copy (he : e.Linked) (p : e.Place) :
    e.Yields (e.visit copyRule) p.val (e.copy p) :=
  he.yields_visit (g := fun _ => ofTree) (fun _ => ofTree_node) p

/-! ## Lines -/

def renderRule (_ : Option Label) (label : Label) (_ : List Tree)
    (lines : List (Nat → List Char)) (level : Nat) : List Char :=
  Tree.renderLine level label ++ lines.flatMap fun lines => lines (level + 1)

theorem render_node (label : Label) (ts : List Tree) (level : Nat) :
    ((Tree.node label ts).render level).toList =
      Tree.renderLine level label ++ ts.flatMap fun t => (t.render (level + 1)).toList := by
  simp only [Tree.render, String.toList_ofList]
  rw [Tree.outline, List.flatMap_cons, Tree.outlineList_eq_flatMap, List.flatMap_assoc]

theorem Linked.yields_render (he : e.Linked) (p : e.Place) :
    e.Yields (e.visit renderRule) p.val fun level => (e.render p level).toList := by
  refine he.yields_visit (g := fun _ t level => (t.render level).toList) (fun _ label ts => ?_) p
  funext level
  rw [render_node, renderRule, List.flatMap_map]

/-! ## Fixed values -/

def fixedRule (_ : Option Label) (label : Label) (_ : List Tree) (fixed : List Bool) : Bool :=
  match label with
  | .var | .unknown _ => false
  | _ => fixed.all id

theorem hasFixedValue_eq_fixedRule (context : Option Label) (label : Label) (ts : List Tree) :
    (Tree.node label ts).hasFixedValue =
      fixedRule context label ts (ts.map Tree.hasFixedValue) := by
  have hall : Tree.haveFixedValues ts = (ts.map Tree.hasFixedValue).all id := by
    rw [Tree.haveFixedValues_eq_all, List.all_map]
    rfl
  cases label with
  | var | unknown => rfl
  | binary | log | group | literal => exact hall

theorem Linked.yields_hasFixedValue (he : e.Linked) (p : e.Place) :
    e.Yields (e.visit fixedRule) p.val (e.subtree p).hasFixedValue :=
  he.yields_visit (g := fun _ => Tree.hasFixedValue) hasFixedValue_eq_fixedRule p

/-! ## Nodes as they are applied -/

def keepUnder (parent : Label) (e : Expression) : Expression :=
  if (e.label e.root).changesUnder parent then unary .group e else e

def operation (op : Operator) (left right : Expression) : Expression :=
  binary op (left.keepUnder (.binary op)) (right.keepUnder (.binary op))

/-- A node with the meaning which it has where it stands, as an expression of its own. -/
def applied (e : Expression) (p : e.Place) : Expression :=
  ofTree ((e.subtree p).applied (e.context p))

def appliedRule (context : Option Label) (label : Label) (_ : List Tree)
    (parts : List Expression) : Expression :=
  match label, parts with
  | .binary op, [left, right] => operation (op.under context) left right
  | label, parts => parts.foldl graftAtRoot (single label)

theorem label_root_ofTree (t : Tree) : (ofTree t).label (ofTree t).root = t.label := by
  have h := congrArg Tree.label (toTree_ofTree t)
  rwa [toTree, subtree_eq] at h

theorem ofTree_keepUnder (parent : Label) (t : Tree) :
    ofTree (t.keepUnder parent) = (ofTree t).keepUnder parent := by
  rw [keepUnder, label_root_ofTree, Tree.keepUnder]
  split
  · exact ofTree_unary .group t
  · rfl

theorem ofTree_operation (op : Operator) (t u : Tree) :
    ofTree (.operation op t u) = operation op (ofTree t) (ofTree u) := by
  rw [Tree.operation, ofTree_binary, ofTree_keepUnder, ofTree_keepUnder, operation]

theorem ofTree_applied_node (context : Option Label) (label : Label) (ts : List Tree) :
    ofTree ((Tree.node label ts).applied context) =
      appliedRule context label ts (ts.map fun t => ofTree (t.applied (some label))) := by
  obtain ⟨op, t, u, h⟩ | ⟨_, _, h, hop⟩ := Tree.operation_or (.node label ts)
  · cases h
    show ofTree (.operation _ _ _) = operation _ _ _
    rw [ofTree_operation]
  · cases h
    rw [Tree.applied_node hop, ofTree_node, List.map_map, appliedRule]
    · rfl
    · rintro op l r rfl hparts
      have hlen := congrArg List.length hparts
      rw [List.length_map] at hlen
      exact hop op rfl hlen

theorem Linked.yields_applied (he : e.Linked) (p : e.Place) :
    e.Yields (e.visit appliedRule) p.val (e.applied p) :=
  he.yields_visit (g := fun context t => ofTree (t.applied context)) ofTree_applied_node p

/-! ## Derivatives -/

def derivativeRule (_ : Option Label) (label : Label) (operands : List Tree)
    (derivatives : List (StateM GapRecord Tree)) : StateM GapRecord Tree :=
  match label, operands, derivatives with
  | .var, _, _ => return .number "1"
  | .literal _, _, _ => return .number "0"
  | .unknown text, _, _ => Tree.zeroFor (.unknownLeaf text)
  | .binary .add, _, [g', h'] => return .operation .add (← g') (← h')
  | .binary .subtract, _, [g', h'] => return .operation .subtract (← g') (← h')
  | .binary .multiply, [g, h], [g', h'] => return .productRule g h (← g') (← h')
  | .binary .divide, [g, h], [g', h'] => return .quotientRule g h (← g') (← h')
  | .binary .power, [g, h], [g', h'] =>
    match g.hasFixedValue, h.hasFixedValue with
    | true, true => return .number "0"
    | true, false => return .exponentRule g h (← h')
    | false, true => return .baseRule g h (← g')
    | false, false => Tree.zeroFor .varyingPower
  | .group, _, [g'] => return .unary .group (← g')
  | .log, [g], [g'] => return .logRule g (← g')
  | label, _, _ => Tree.zeroFor (.wrongArity label)

theorem derivative_eq_derivativeRule (context : Option Label) (label : Label) (ts : List Tree) :
    (Tree.node label ts).derivative =
      derivativeRule context label ts (ts.map Tree.derivative) := by
  match label, ts with
  | .var, _ | .literal _, _ | .unknown _, _ => rfl
  | .binary op, [g, h] => cases op <;> rfl
  | .group, [g] | .log, [g] => rfl
  | .binary op, [] | .binary op, [_] | .binary op, _ :: _ :: _ :: _ => cases op <;> rfl
  | .group, [] | .group, _ :: _ :: _ | .log, [] | .log, _ :: _ :: _ => rfl

theorem Linked.yields_derivative (he : e.Linked) (p : e.Place) :
    e.Yields (e.visit derivativeRule) p.val (e.subtree p).derivative :=
  he.yields_visit (g := fun _ => Tree.derivative) derivative_eq_derivativeRule p

end Ordinate.Expression

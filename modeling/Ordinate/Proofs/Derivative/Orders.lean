import Ordinate.Proofs.Derivative.Ruled
import Ordinate.Proofs.Expression.Built
import Ordinate.Proofs.Expression.Text

/-!
# Derivatives of every order

The rules put operands which they keep and derivatives which they are given under new operations. A
property of trees which survives that holds of every derivative of a tree which has it.

* `Tree.KeptByRules` : a property of trees which the rules keep;
* `Tree.KeptByRules.slope` : the derivative of a tree has it if the tree has;
* `Expression.IsDerivative` : one expression is the derivative of a node of the other;
* `Expression.Linked.kept_of_reflTransGen` : what the rules keep holds of derivatives of every order;
* `Expression.gap_free_orders`, `Expression.steady_orders` : where no gap is met none is met later,
  and derivatives of every order have all operands and no node which changes under its parent.
-/

namespace Ordinate

universe u

namespace Tree

/-- The rules keep a property: numbers have it, and it passes from a tree to its operands, and from
operands to the operations which the rules make, of which a power has one with a fixed value. -/
structure KeptByRules (P : Tree → Prop) : Prop where
  operand : ∀ {label : Label} {children : List Tree}, P (.node label children) →
    ∀ t ∈ children, P t
  number : ∀ text, Literal.accepts text → P (number text)
  log : ∀ {t : Tree}, P t → P (unary .log t)
  group : ∀ {t : Tree}, P t → P (unary .group t)
  operation : ∀ {op : Operator} {t u : Tree},
    (op = .power → t.hasFixedValue ∨ u.hasFixedValue) → P t → P u → P (operation op t u)

namespace KeptByRules

variable {P : Tree → Prop} (hP : KeptByRules P)

include hP

theorem productRule {g h g' h' : Tree} (hg : P g) (hh : P h) (hg' : P g') (hh' : P h') :
    P (productRule g h g' h') :=
  hP.operation nofun (hP.operation nofun hg' hh) (hP.operation nofun hg hh')

theorem quotientRule {g h g' h' : Tree} (hg : P g) (hh : P h) (hg' : P g') (hh' : P h') :
    P (quotientRule g h g' h') :=
  hP.operation nofun
    (hP.operation nofun (hP.operation nofun hg' hh) (hP.operation nofun hg hh'))
    (hP.operation (fun _ => .inr rfl) hh (hP.number "2" rfl))

theorem exponentRule {b h h' : Tree} (hfixed : b.hasFixedValue) (hb : P b) (hh : P h)
    (hh' : P h') : P (exponentRule b h h') :=
  hP.operation nofun
    (hP.operation nofun hh' (hP.operation (fun _ => .inl hfixed) hb hh)) (hP.log hb)

theorem baseRule {g n g' : Tree} (hfixed : n.hasFixedValue) (hg : P g) (hn : P n) (hg' : P g') :
    P (baseRule g n g') := by
  have hless : (Tree.operation .subtract n (Tree.number "1")).hasFixedValue := by
    rw [hasFixedValue_operation, hfixed]
    rfl
  refine hP.operation nofun (hP.operation nofun hg' (hP.operation (fun _ => .inr hless) hg ?_)) hn
  exact hP.operation nofun hn (hP.number "1" rfl)

theorem operationSlope {op : Operator} {g h g' h' : Tree} (hg : P g) (hh : P h) (hg' : P g')
    (hh' : P h') : P (operationSlope op g h g' h') := by
  cases op with
  | add | subtract => exact hP.operation nofun hg' hh'
  | multiply => exact hP.productRule hg hh hg' hh'
  | divide => exact hP.quotientRule hg hh hg' hh'
  | power =>
    unfold Tree.operationSlope
    cases hfixed : g.hasFixedValue <;> cases hfixed' : h.hasFixedValue
    · exact hP.number "0" rfl
    · exact hP.baseRule hfixed' hg hh hg'
    · exact hP.exponentRule hfixed hg hh hh'
    · exact hP.number "0" rfl

/-- What the rules keep holds of the derivative of a tree if it holds of the tree. -/
theorem slope {t : Tree} (ht : t.Saturated) : P t → P t.slope := by
  refine ht.shapes ?leaf ?log ?group ?binary
  case leaf =>
    intro label harity _
    match label, harity with
    | .var, _ => exact hP.number "1" rfl
    | .literal _, _ | .unknown _, _ => exact hP.number "0" rfl
  case log =>
    intro t _ ih h
    have hoperand := hP.operand h t (by simp)
    rw [slope_log]
    exact hP.operation nofun (ih hoperand) hoperand
  case group =>
    intro t _ ih h
    rw [slope_group]
    exact hP.group (ih (hP.operand h t (by simp)))
  case binary =>
    intro op t u _ _ iht ihu h
    have hleft := hP.operand h t (by simp)
    have hright := hP.operand h u (by simp)
    rw [slope_binary]
    exact hP.operationSlope hleft hright (iht hleft) (ihu hright)

end KeptByRules

theorem keptByRules_saturated : KeptByRules Saturated where
  operand := fun ⟨_, h⟩ => h
  number _ _ := saturated_leaf.2 rfl
  log h := saturated_unary.2 ⟨rfl, h⟩
  group h := saturated_unary.2 ⟨rfl, h⟩
  operation _ ht hu := saturated_operation.2 ⟨ht, hu⟩

theorem keptByRules_steady : KeptByRules Steady where
  operand h := (steady_node.1 h).2
  number _ _ := steady_leaf _
  log := steady_log.2
  group := steady_group.2
  operation _ ht hu := steady_operation.2 ⟨ht, hu⟩

theorem keptByRules_ruled : KeptByRules Ruled where
  operand h := (everywhere_node.1 h).2
  number _ _ := ruled_leaf.2 fun _ => nofun
  log := ruled_log.2
  group := ruled_group.2
  operation hfixed ht hu := ruled_operation.2 ⟨hfixed, ht, hu⟩

end Tree

namespace Expression

/-- `d` is the derivative of a node of `e`. -/
def IsDerivative (e d : Expression) : Prop :=
  ∃ p : e.Place, d = e.derivative p

variable {e d : Expression}

theorem derivative_eq_ofTree (p : e.Place) : e.derivative p = ofTree (e.slope p) :=
  congrArg Prod.fst (derivativeWith_eq p {})

theorem linked_derivative (p : e.Place) : (e.derivative p).Linked :=
  linked_ofTree (e.slope p)

section Step

variable (he : e.Linked) (hs : e.Saturated) (p : e.Place)

include he hs

theorem Linked.saturated_applied : ((e.subtree p).applied (e.context p)).Saturated :=
  Tree.saturated_applied (he.saturated_subtree hs p) _

theorem Linked.saturated_derivative : (e.derivative p).Saturated := by
  have hsat := he.saturated_applied hs p
  rw [derivative_eq_ofTree]
  exact saturated_ofTree (Tree.keptByRules_saturated.slope hsat hsat)

theorem Linked.steady_derivative : (e.derivative p).Steady := by
  have hsteady := Tree.steady_applied (he.saturated_subtree hs p) (e.context p)
  rw [derivative_eq_ofTree]
  exact steady_ofTree (Tree.keptByRules_steady.slope (he.saturated_applied hs p) hsteady)

theorem Linked.ruled_derivative (h : (e.subtree p).Ruled) : (e.derivative p).toTree.Ruled := by
  have hruled := (Tree.ruled_applied (he.saturated_subtree hs p) (e.context p)).2 h
  rw [derivative_eq_ofTree, toTree_ofTree]
  exact Tree.keptByRules_ruled.slope (he.saturated_applied hs p) hruled

end Step

/-- Derivatives of every order have sound links, all operands, and no node which changes under its
parent. -/
theorem Linked.steady_of_transGen (he : e.Linked) (hs : e.Saturated)
    (hd : Relation.TransGen IsDerivative e d) : d.Linked ∧ d.Saturated ∧ d.Steady := by
  induction hd with
  | single hstep =>
    obtain ⟨p, rfl⟩ := hstep
    exact ⟨linked_derivative p, he.saturated_derivative hs p, he.steady_derivative hs p⟩
  | tail _ hstep ih =>
    obtain ⟨p, rfl⟩ := hstep
    obtain ⟨hd, hsat, -⟩ := ih
    exact ⟨linked_derivative p, hd.saturated_derivative hsat p, hd.steady_derivative hsat p⟩

section Kept

variable {P : Tree → Prop} (hP : Tree.KeptByRules P)
  (happlied : ∀ {t : Tree} (context : Option Label), t.Saturated → P t → P (t.applied context))

include hP

/-- What the rules keep of a whole tree holds below every node. -/
theorem Linked.kept_subtree (he : e.Linked) (h : P e.toTree) (p : e.Place) : P (e.subtree p) := by
  have hbelow := he.below_root p
  induction hbelow with
  | refl => exact h
  | @tail q c _ hc ih =>
    rw [subtree_eq] at ih
    exact hP.operand ih _ (List.mem_map_of_mem hc)

include happlied

theorem Linked.kept_derivative (he : e.Linked) (hs : e.Saturated) (h : P e.toTree) (p : e.Place) :
    P (e.derivative p).toTree := by
  rw [derivative_eq_ofTree, toTree_ofTree]
  exact hP.slope (he.saturated_applied hs p)
    (happlied _ (he.saturated_subtree hs p) (he.kept_subtree hP h p))

/-- What the rules keep, and trees as they are applied, holds of the derivatives of every order. -/
theorem Linked.kept_of_reflTransGen (he : e.Linked) (hs : e.Saturated) (h : P e.toTree)
    (hd : Relation.ReflTransGen IsDerivative e d) : d.Linked ∧ d.Saturated ∧ P d.toTree := by
  induction hd with
  | refl => exact ⟨he, hs, h⟩
  | tail _ hstep ih =>
    obtain ⟨p, rfl⟩ := hstep
    obtain ⟨hd, hsat, hkept⟩ := ih
    exact ⟨linked_derivative p, hd.saturated_derivative hsat p,
      hd.kept_derivative hP happlied hsat hkept p⟩

end Kept

/-- A rule for every node is a rule for every node of the derivatives of every order. -/
theorem Linked.ruled_of_reflTransGen (he : e.Linked) (hs : e.Saturated) (h : e.toTree.Ruled)
    (hd : Relation.ReflTransGen IsDerivative e d) : d.Linked ∧ d.Saturated ∧ d.toTree.Ruled :=
  he.kept_of_reflTransGen Tree.keptByRules_ruled
    (fun context ht => (Tree.ruled_applied ht context).2) hs h hd

/-- A differentiation of a node meets no gap exactly if no leaf without meaning stands from the node
down, and no power of two operands which both vary. No gap is met later then: not at any node of
the derivative, nor of a derivative of one, and so on. -/
theorem gap_free_orders (h : e.Built) (hs : e.Saturated) (p : e.Place) (r : GapRecord) :
    ((e.derivativeWith p r).2 = r ↔
      (∀ q text, e.Below p q → e.label q ≠ .unknown text) ∧
      ∀ q l r, e.Below p q → e.label q = .binary .power → e.children q = [l, r] →
        ¬(e.Varies l ∧ e.Varies r)) ∧
    ((e.derivativeWith p r).2 = r →
      ∀ d, Relation.ReflTransGen IsDerivative (e.derivativeWith p r).1 d →
        ∀ (q : d.Place) (r' : GapRecord), (d.derivativeWith q r').2 = r') := by
  have he := h.linked
  have hfirst : (e.derivativeWith p r).1 = e.derivative p := by
    rw [derivativeWith_eq, derivative_eq_ofTree]
  rw [derivativeWith_keeps_iff, he.gaps_eq_empty_iff hs, hfirst]
  refine ⟨ruled_subtree_iff, fun hruled d hd q r' => ?_⟩
  obtain ⟨hlinked, hsat, hruled⟩ := (linked_derivative p).ruled_of_reflTransGen
    (he.saturated_derivative hs p) (he.ruled_derivative hs p hruled) hd
  rw [derivativeWith_keeps_iff, hlinked.gaps_eq_empty_iff hsat]
  exact hlinked.everywhere_subtree hruled q

def squareTimes : Expression :=
  ofTree (.binary .multiply (.binary .power (.leaf .var) (.leaf (.literal "2.0"))) (.leaf .var))

theorem gap_free_orders_squareTimes :
    ofText "x^2*x" = .ok squareTimes ∧
      (squareTimes.derivativeWith squareTimes.root {}).2 = {} ∧
      (∀ q l r, squareTimes.Below squareTimes.root q → squareTimes.label q = .binary .power →
        squareTimes.children q = [l, r] → ¬(squareTimes.Varies l ∧ squareTimes.Varies r)) ∧
      ∀ (q : (squareTimes.derivative squareTimes.root).Place) (r : GapRecord)
        (m : ((squareTimes.derivative squareTimes.root).derivative q).Place),
        (((squareTimes.derivative squareTimes.root).derivative q).derivativeWith m r).2 = r := by
  have htext : ofText "x^2*x" = .ok squareTimes := by decide +kernel
  have hgaps : (squareTimes.derivativeWith squareTimes.root {}).2 = {} :=
    derivativeWith_keeps_iff.2 (by decide +kernel)
  obtain ⟨hiff, horders⟩ := gap_free_orders (built_of_ofText htext) (saturated_of_ofText htext)
    squareTimes.root {}
  refine ⟨htext, hgaps, (hiff.1 hgaps).2, fun q r m => ?_⟩
  exact horders hgaps _ (.single ⟨q, rfl⟩) m r

/-- Texts write expressions in which each node has its operands; and in a derivative of any order of
such an expression each node has its operands, none applies another operator than its own, and each
is worth alone what it is worth where it stands. -/
theorem steady_orders :
    (∀ text limits e, ofText text limits = .ok e → e.Built ∧ e.Saturated) ∧
    ∀ e : Expression, e.Built → e.Saturated → ∀ d, Relation.TransGen IsDerivative e d →
      d.Saturated ∧ d.Steady ∧ ∀ (α : Type u) (A : Arithmetic α) (x : α) (m : d.Place),
        (d.copy m).evaluate A x (d.copy m).root = d.evaluate A x m := by
  refine ⟨fun text limits e h => ⟨built_of_ofText h, saturated_of_ofText h⟩, ?_⟩
  intro e h hs d hd
  obtain ⟨hlinked, hsat, hsteady⟩ := h.linked.steady_of_transGen hs hd
  exact ⟨hsat, hsteady, fun α A x => hlinked.evaluate_copy_of_steady hsteady A x⟩

/-- The expression written by `x-x*x-x`, in which the node on the right is labelled `-` and adds. -/
def differences : Expression :=
  ofTree (.binary .subtract (.leaf .var)
    (.binary .subtract (.binary .multiply (.leaf .var) (.leaf .var)) (.leaf .var)))

def differences.inner : differences.Place :=
  ⟨2, by decide +kernel⟩

theorem steady_orders_differences :
    ofText "x-x*x-x" = .ok differences ∧
      ∀ q : (differences.derivative differences.inner).Place,
        ((differences.derivative differences.inner).derivative q).Steady := by
  have htext : ofText "x-x*x-x" = .ok differences := by decide +kernel
  refine ⟨htext, fun q => ?_⟩
  obtain ⟨htexts, horders⟩ := steady_orders.{0}
  obtain ⟨hbuilt, hsat⟩ := htexts _ _ _ htext
  have hsecond : Relation.TransGen IsDerivative differences
      ((differences.derivative differences.inner).derivative q) :=
    .tail (.single ⟨differences.inner, rfl⟩) ⟨q, rfl⟩
  exact (horders differences hbuilt hsat _ hsecond).2.1

end Expression

end Ordinate

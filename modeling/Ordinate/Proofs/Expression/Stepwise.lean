import Ordinate.Proofs.Expression.Recursion
import Ordinate.Proofs.Parse.Reads

/-!
# Expressions made step by step

The parser and the differentiation make labelled trees, which are laid out when they are finished.
Here each of their steps makes expressions, as the recursions over nodes in
`Ordinate.Proofs.Expression.Recursion` do, and the results are the same.

* `Parse.Maker.Hom.parse` : a parse follows a map from trees to other results;
* `Expression.ofText_eq_parse` : so it can make expressions from the start;
* `Expression.deriveRule`, `Expression.eq_derive_iff` : the rules of differentiation for expressions
  determine the derivatives of nodes which apply the operators they are labelled with;
* `Expression.derivativeWith_eq_of_deriveRule` : so they make the derivative of every node.
-/

namespace Ordinate

namespace Parse

/-! ## Results of another kind -/

/-- The map `f` takes the trees of a text to what `M` makes of the text. -/
structure Maker.Hom {τ : Type} (M : Maker τ) (f : Tree → τ) : Prop where
  single (label : Label) : M.single label = f (.leaf label)
  unary (label : Label) (t : Tree) : M.unary label (f t) = f (.unary label t)
  binary (op : Operator) (t u : Tree) : M.binary op (f t) (f u) = f (.binary op t u)
  size (t : Tree) : M.size (f t) = t.size

theorem map_apply {β γ : Type} (f : β → γ) (step : Attempt β) (s : State) :
    (f <$> step) s = ((step s).1.map f, (step s).2) := by
  rw [map_eq_pure_bind]
  rcases h : step s with ⟨reason | b, s'⟩
  · rw [bind_of_error h]
    rfl
  · rw [bind_of_ok h]
    rfl

theorem map_deeper {β γ : Type} (limits : Limits) (f : β → γ) (step : Attempt β) :
    deeper limits (f <$> step) = f <$> deeper limits step := by
  funext s
  rw [map_apply]
  unfold deeper
  split
  · rfl
  · rw [map_apply]
    rcases step { s with depth := s.depth + 1 } with ⟨result, s'⟩
    rfl

namespace Maker.Hom

variable {τ : Type} {M : Maker τ} {f : Tree → τ} (H : M.Hom f)

include H

theorem readLeaf (text : List Char) : M.readLeaf text = f <$> leaf text := by
  unfold leaf Maker.readLeaf Maker.tree
  simp only [H.single]
  cases Literal.read text with
  | some v => exact (map_pure f _).symm
  | none =>
    dsimp only
    split_ifs
    · exact (map_pure f _).symm
    · funext s
      rw [map_apply]
      rfl
    · funext s
      rw [map_apply]
      rfl

theorem follows (limits : Limits) :
    Follows (M.rules limits) f limits (fun x y => x = f <$> y) fun _ => True where
  pure t := (map_pure f t).symm
  bind h hk := by
    rw [h, bind_map_left, map_bind]
    exact bind_congr hk
  splitFrom? _ _ := rfl
  logArgument? _ := rfl
  groupInside? _ := rfl
  leaf := H.readLeaf
  reject event := by
    funext s
    rw [map_apply]
    rfl
  deeper h := by
    rw [h, ← map_deeper]
    rfl
  unary := H.unary
  binary := H.binary
  sides _ _ := ⟨trivial, trivial⟩
  argument _ _ := trivial
  inside _ _ := trivial

theorem whole (limits : Limits) (text : List Char) :
    (M.rules limits).whole limits text = f <$> (Parse.rules limits).whole limits text := by
  unfold Rules.whole
  split
  · exact (H.follows limits).chain trivial [] .sum
  · rfl

/-- A parse has the same notes, whatever it makes. -/
theorem parse (limits : Limits) (text : String) (s : State) :
    (M.rules limits).parse limits text s =
      ((Parse.parse limits text s).1.map f, (Parse.parse limits text s).2) := by
  unfold Parse.parse Rules.parse
  rw [H.whole, map_apply]
  rcases (Parse.rules limits).whole limits (stripped text) { s with depth := 0 } with
    ⟨reason | t, s'⟩
  · rfl
  · show (_, State.note s' (.parsed _ (M.size (f t)))) = _
    rw [H.size]
    rfl

end Maker.Hom

end Parse

namespace Expression

/-! ## Parsing -/

mutual

theorem size_ofTree : ∀ t : Tree, (ofTree t).size = t.size
  | .node label children => by rw [ofTree, size_graftTrees _ children, size_single, Tree.size]

theorem size_graftTrees (e : Expression) :
    ∀ ts : List Tree, (e.graftTrees ts).size = e.size + Tree.sizeList ts
  | [] => rfl
  | t :: ts => by
    rw [graftTrees, size_graftTrees _ ts, graftAtRoot, size_graft, size_ofTree t, Tree.sizeList,
      Nat.add_assoc]

end

def maker : Parse.Maker Expression where
  single := single
  unary := unary
  binary := binary
  size := size

theorem hom_ofTree : maker.Hom ofTree where
  single label := (ofTree_leaf label).symm
  unary label t := (ofTree_unary label t).symm
  binary op t u := (ofTree_binary op t u).symm
  size := size_ofTree

/-- The rules make the same expression node by node as they write it by a tree. -/
theorem ofText_eq_parse (text : String) (limits : Parse.Limits) :
    ofText text limits = ((maker.rules limits).parse limits text {}).1 := by
  rw [hom_ofTree.parse]
  rfl

/-! ## Differentiation -/

variable (e : Expression)

def derive (p : e.Place) : StateM GapRecord Expression :=
  ofTree <$> (e.subtree p).derivative

def number (text : String) : Expression :=
  single (.literal text)

def zeroFor (g : Gap) : StateM GapRecord Expression := fun r =>
  (number "0", r.note g)

/-- The derivative of a node from those of its children, where every part of the result is an
expression and every operand in it a copy. -/
def deriveRule (derive : e.Place → StateM GapRecord Expression) (p : e.Place) :
    StateM GapRecord Expression :=
  match e.label p, e.children p with
  | .var, _ => return number "1"
  | .literal _, _ => return number "0"
  | .unknown text, _ => zeroFor (.unknownLeaf text)
  | .binary .add, [g, h] => return operation .add (← derive g) (← derive h)
  | .binary .subtract, [g, h] => return operation .subtract (← derive g) (← derive h)
  | .binary .multiply, [g, h] => do
    let g' ← derive g
    let h' ← derive h
    return operation .add (operation .multiply g' (e.copy h)) (operation .multiply (e.copy g) h')
  | .binary .divide, [g, h] => do
    let g' ← derive g
    let h' ← derive h
    return operation .divide
      (operation .subtract (operation .multiply g' (e.copy h)) (operation .multiply (e.copy g) h'))
      (operation .power (e.copy h) (number "2"))
  | .binary .power, [g, h] =>
    match (e.subtree g).hasFixedValue, (e.subtree h).hasFixedValue with
    | true, true => return number "0"
    | true, false => do
      let h' ← derive h
      return operation .multiply (operation .multiply h' (operation .power (e.copy g) (e.copy h)))
        (unary .log (e.copy g))
    | false, true => do
      let g' ← derive g
      return operation .multiply
        (operation .multiply g'
          (operation .power (e.copy g) (operation .subtract (e.copy h) (number "1"))))
        (e.copy h)
    | false, false => zeroFor .varyingPower
  | .group, [g] => return unary .group (← derive g)
  | .log, [g] => return operation .divide (← derive g) (e.copy g)
  | label, _ => zeroFor (.wrongArity label)

theorem ofTree_number (text : String) : ofTree (.number text) = number text := rfl

theorem derive_eq (p : e.Place) : e.derive p = e.deriveRule e.derive p := by
  rw [derive, subtree_eq, deriveRule]
  generalize e.label p = label
  generalize e.children p = children
  match label, children with
  | .var, _ | .literal _, _ | .unknown _, _ => rfl
  | .binary .add, [g, h] | .binary .subtract, [g, h] =>
    simp only [List.map_cons, List.map_nil, Tree.derivative, map_bind, map_pure, bind_map_left,
      ofTree_operation, derive]
  | .binary .multiply, [g, h] =>
    simp only [List.map_cons, List.map_nil, Tree.derivative, map_bind, map_pure, bind_map_left,
      Tree.productRule, ofTree_operation, derive, copy]
  | .binary .divide, [g, h] =>
    simp only [List.map_cons, List.map_nil, Tree.derivative, map_bind, map_pure, bind_map_left,
      Tree.quotientRule, ofTree_operation, ofTree_number, derive, copy]
  | .binary .power, [g, h] =>
    simp only [List.map_cons, List.map_nil, Tree.derivative]
    cases (e.subtree g).hasFixedValue <;> cases (e.subtree h).hasFixedValue
    · rfl
    · simp only [map_bind, map_pure, bind_map_left, Tree.baseRule, ofTree_operation, ofTree_number,
        derive, copy]
    · simp only [map_bind, map_pure, bind_map_left, Tree.exponentRule, ofTree_operation,
        ofTree_unary, derive, copy]
    · rfl
  | .group, [g] =>
    simp only [List.map_cons, List.map_nil, Tree.derivative, map_bind, map_pure, bind_map_left,
      ofTree_unary, derive]
  | .log, [g] =>
    simp only [List.map_cons, List.map_nil, Tree.derivative, map_bind, map_pure, bind_map_left,
      Tree.logRule, ofTree_operation, derive, copy]
  | .binary op, [] | .binary op, [_] | .binary op, _ :: _ :: _ :: _ => cases op <;> rfl
  | .group, [] | .group, _ :: _ :: _ | .log, [] | .log, _ :: _ :: _ => rfl

theorem deriveRule_congr {d d' : e.Place → StateM GapRecord Expression} {p : e.Place}
    (h : ∀ c ∈ e.children p, d c = d' c) : e.deriveRule d p = e.deriveRule d' p := by
  unfold deriveRule
  generalize e.label p = label
  generalize e.children p = children at h
  match label, children with
  | .var, _ | .literal _, _ | .unknown _, _ => rfl
  | .binary op, [g, k] =>
    obtain ⟨hg, hk⟩ : d g = d' g ∧ d k = d' k := by simpa using h
    cases op <;> simp only [hg, hk]
  | .group, [g] | .log, [g] =>
    have hg : d g = d' g := by simpa using h
    simp only [hg]
  | .binary op, [] | .binary op, [_] | .binary op, _ :: _ :: _ :: _ => cases op <;> rfl
  | .group, [] | .group, _ :: _ :: _ | .log, [] | .log, _ :: _ :: _ => rfl

/-- The rule determines the derivatives of all nodes. -/
theorem eq_derive_iff {d : e.Place → StateM GapRecord Expression} :
    d = e.derive ↔ ∀ p, d p = e.deriveRule d p := by
  constructor
  · rintro rfl
    exact e.derive_eq
  · intro h
    funext p
    induction p using induction_on_children with
    | step p ih => rw [h, derive_eq, deriveRule_congr e ih]

theorem derivativeWith_eq_of_deriveRule {p : e.Place}
    {d : (e.applied p).Place → StateM GapRecord Expression}
    (h : ∀ q, d q = (e.applied p).deriveRule d q) :
    e.derivativeWith p = d (e.applied p).root := by
  rw [(eq_derive_iff _).2 h, derive, ← toTree, applied, toTree_ofTree]
  rfl

end Expression

end Ordinate

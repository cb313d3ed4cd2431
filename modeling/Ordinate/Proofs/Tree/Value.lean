import Ordinate.Derivative.Rules
import Ordinate.Proofs.Tree.Shape

/-!
# Values of trees

* `Tree.value` : the value of a tree from its labels alone, each node passing its label down to its
  children;
* `Label.under`, `Arithmetic.nodeValue_eq_under` : a label with the operator which it applies under
  a parent, by which alone the parent decides what the node is worth;
* `Expression.Linked.evaluate_eq_value` : what a node is worth in place is the value of the tree
  below it under its parent's label, and `Expression.evaluate_ofTree` the same of a laid out tree;
* `Tree.value_operation`, `Tree.value_applied` : operands in parentheses keep their value, and a
  tree labelled with the operators it applies is worth alone what the tree was worth in its context;
* `Tree.value_eq_of_hasFixedValue` : a tree without the variable has one value;
* `Expression.subtree_binary`, `Expression.evaluate_binary` and their siblings : the tree, the value
  and the contexts at a node with one or two children.
-/

namespace Ordinate

universe u

variable {α : Type u} (A : Arithmetic α) (x : α)

namespace Tree

mutual

/-- The value of a tree under a parent labelled `context`, where the variable is `x`. -/
def value (context : Option Label) : Tree → α
  | node label children => A.nodeValue x context label (values label children)

def values (parent : Label) : List Tree → List α
  | [] => []
  | t :: ts => t.value (some parent) :: values parent ts

end

theorem values_eq_map (parent : Label) (ts : List Tree) :
    values A x parent ts = ts.map (value A x (some parent)) := by
  induction ts with
  | nil => rfl
  | cons t ts ih => rw [values, ih, List.map_cons]

theorem value_node (context : Option Label) (label : Label) (children : List Tree) :
    (node label children).value A x context =
      A.nodeValue x context label (children.map (value A x (some label))) := by
  rw [value, values_eq_map]

@[simp] theorem value_binary (context : Option Label) (op : Operator) (t u : Tree) :
    (binary op t u).value A x context =
      (op.under context).apply A (t.value A x (some (.binary op)))
        (u.value A x (some (.binary op))) := rfl

/-! ## Contexts -/

/-- Only operators look at their context, and only the variable at its value. -/
theorem nodeValue_congr {label : Label} {c c' : Option Label} {x y : α} (values : List α)
    (hc : ∀ op, label = .binary op → op.under c = op.under c') (hx : label = .var → x = y) :
    A.nodeValue x c label values = A.nodeValue y c' label values := by
  unfold Arithmetic.nodeValue
  split
  · rfl
  · exact hx rfl
  · rw [hc _ rfl]
  · rfl
  · rfl
  · rfl

/-- A node whose operator its parent does not change is worth what it is worth alone. -/
theorem value_eq_of_not_changesUnder {parent : Label} {t : Tree}
    (h : t.label.changesUnder parent = false) :
    t.value A x (some parent) = t.value A x none := by
  obtain ⟨label, children⟩ := t
  rw [value_node, value_node]
  refine nodeValue_congr A _ (fun op hop => ?_) fun _ => rfl
  rw [Tree.label, hop] at h
  simpa [Label.changesUnder, Label.operator?, Operator.under_none] using h

theorem changesUnder_eq_false {label parent : Label}
    (h : parent ≠ .binary .subtract ∧ parent ≠ .binary .divide) :
    label.changesUnder parent = false := by
  unfold Label.changesUnder
  split
  · rw [Operator.under_eq_self h]
    exact decide_eq_false fun hne => hne rfl
  · rfl

@[simp] theorem value_log (context : Option Label) (t : Tree) :
    (unary .log t).value A x context = A.log (t.value A x none) :=
  congrArg A.log (value_eq_of_not_changesUnder A x (changesUnder_eq_false (by decide)))

@[simp] theorem value_group (context : Option Label) (t : Tree) :
    (unary .group t).value A x context = t.value A x none :=
  value_eq_of_not_changesUnder A x (changesUnder_eq_false (by decide))

theorem value_keepUnder (parent : Label) (t : Tree) :
    (t.keepUnder parent).value A x (some parent) = t.value A x none := by
  unfold keepUnder
  split
  · exact value_group A x _ t
  · next h => exact value_eq_of_not_changesUnder A x (Bool.eq_false_iff.2 h)

theorem value_keepUnder_none (parent : Label) (t : Tree) :
    (t.keepUnder parent).value A x none = t.value A x none := by
  unfold keepUnder
  split
  · exact value_group A x none t
  · rfl

theorem value_operation (context : Option Label) (op : Operator) (t u : Tree) :
    (operation op t u).value A x context =
      (op.under context).apply A (t.value A x none) (u.value A x none) := by
  rw [operation, value_binary, value_keepUnder, value_keepUnder]

/-! ## Trees as they are applied -/

theorem applied_binary (context : Option Label) (op : Operator) (t u : Tree) :
    (binary op t u).applied context =
      operation (op.under context) (t.applied (some (.binary op)))
        (u.applied (some (.binary op))) := rfl

theorem applied_node {label : Label} {children : List Tree}
    (h : ∀ op, label = .binary op → children.length ≠ 2) (context : Option Label) :
    (node label children).applied context =
      node label (children.map (applied (some label))) := by
  rw [applied, appliedList_eq_map]
  rintro op t u hop rfl
  exact h op hop rfl

/-- A tree is an operation, or its root is applied as it is labelled. -/
theorem operation_or (t : Tree) : (∃ op u v, t = binary op u v) ∨
    ∃ label children, t = node label children ∧
      ∀ op, label = .binary op → children.length ≠ 2 := by
  obtain ⟨label, children⟩ := t
  by_cases h : ∃ op u v, label = .binary op ∧ children = [u, v]
  · obtain ⟨op, u, v, rfl, rfl⟩ := h
    exact .inl ⟨op, u, v, rfl⟩
  · refine .inr ⟨label, children, rfl, fun op hop hlen => ?_⟩
    obtain ⟨u, v, huv⟩ := List.length_eq_two.1 hlen
    exact h ⟨op, u, v, hop, huv⟩

/-- An operator without its two operands is worth zero whatever stands below it. -/
theorem nodeValue_binary_of_ne {op : Operator} {values : List α} (h : values.length ≠ 2)
    (context : Option Label) : A.nodeValue x context (.binary op) values = A.zero := by
  unfold Arithmetic.nodeValue
  split
  · next h' => cases h'
  · next h' => cases h'
  · exact absurd rfl h
  · next h' => cases h'
  · next h' => cases h'
  · rfl

/-- A tree labelled with the operators which it applies in its context is worth alone what the tree
was worth there. -/
theorem value_applied (t : Tree) (context : Option Label) :
    (t.applied context).value A x none = t.value A x context := by
  induction t generalizing context with
  | node label children ih =>
    obtain ⟨op, u, v, h⟩ | ⟨_, _, h, hop⟩ := operation_or (node label children)
    · cases h
      have hu := ih u (by simp) (some (.binary op))
      have hv := ih v (by simp) (some (.binary op))
      rw [show node (.binary op) [u, v] = binary op u v from rfl, applied_binary, value_operation,
        value_binary, hu, hv, Operator.under_none]
    cases h
    rw [applied_node hop, value_node, value_node, List.map_map]
    by_cases hlabel : ∃ op, label = .binary op
    · obtain ⟨op, rfl⟩ := hlabel
      have hlen := hop op rfl
      rw [nodeValue_binary_of_ne A x (by rwa [List.length_map]),
        nodeValue_binary_of_ne A x (by rwa [List.length_map])]
    · have hne : ∀ op, label ≠ .binary op := fun op h => hlabel ⟨op, h⟩
      have hvalue : ∀ t ∈ children, (value A x (some label) ∘ applied (some label)) t =
          t.value A x (some label) := fun t ht =>
        (value_eq_of_not_changesUnder A x (changesUnder_eq_false ⟨hne _, hne _⟩)).trans (ih t ht _)
      rw [List.map_congr_left hvalue]
      exact nodeValue_congr A _ (fun op h => absurd h (hne op)) fun _ => rfl

/-! ## Fixed values -/

theorem hasFixedValue_node {label : Label} (hvar : label ≠ .var)
    (hunknown : ∀ text, label ≠ .unknown text) (children : List Tree) :
    (node label children).hasFixedValue = children.all hasFixedValue := by
  rw [hasFixedValue, haveFixedValues_eq_all]
  · exact hvar
  · exact hunknown

@[simp] theorem hasFixedValue_binary (op : Operator) (t u : Tree) :
    (binary op t u).hasFixedValue = (t.hasFixedValue && u.hasFixedValue) := by
  simp [binary, hasFixedValue, haveFixedValues]

@[simp] theorem hasFixedValue_log (t : Tree) : (unary .log t).hasFixedValue = t.hasFixedValue := by
  simp [unary, hasFixedValue, haveFixedValues]

@[simp] theorem hasFixedValue_group (t : Tree) :
    (unary .group t).hasFixedValue = t.hasFixedValue := by
  simp [unary, hasFixedValue, haveFixedValues]

@[simp] theorem hasFixedValue_keepUnder (parent : Label) (t : Tree) :
    (t.keepUnder parent).hasFixedValue = t.hasFixedValue := by
  unfold keepUnder
  split
  · exact hasFixedValue_group t
  · rfl

@[simp] theorem hasFixedValue_operation (op : Operator) (t u : Tree) :
    (operation op t u).hasFixedValue = (t.hasFixedValue && u.hasFixedValue) := by
  rw [operation, hasFixedValue_binary, hasFixedValue_keepUnder, hasFixedValue_keepUnder]

theorem value_eq_of_hasFixedValue {t : Tree} (h : t.hasFixedValue) (x y : α)
    (context : Option Label) : t.value A x context = t.value A y context := by
  induction t generalizing context with
  | node label children ih =>
    by_cases hvar : label = .var
    · subst hvar
      cases h
    by_cases hunknown : ∃ text, label = .unknown text
    · obtain ⟨text, rfl⟩ := hunknown
      cases h
    have hall : ∀ t ∈ children, t.hasFixedValue := by
      rwa [hasFixedValue_node hvar fun text hl => hunknown ⟨text, hl⟩, List.all_eq_true] at h
    have hvalues : children.map (value A x (some label)) = children.map (value A y (some label)) :=
      List.map_congr_left fun t ht => ih t ht (hall t ht) _
    rw [value_node, value_node, hvalues]
    exact nodeValue_congr A _ (fun _ _ => rfl) fun h => absurd h hvar

theorem hasFixedValue_applied (t : Tree) (context : Option Label) :
    (t.applied context).hasFixedValue = t.hasFixedValue := by
  induction t generalizing context with
  | node label children ih =>
    obtain ⟨op, u, v, h⟩ | ⟨_, _, h, hop⟩ := operation_or (node label children)
    · cases h
      have hu := ih u (by simp) (some (.binary op))
      have hv := ih v (by simp) (some (.binary op))
      rw [show node (.binary op) [u, v] = binary op u v from rfl, applied_binary,
        hasFixedValue_operation, hasFixedValue_binary, hu, hv]
    cases h
    rw [applied_node hop]
    by_cases hvar : label = .var
    · rw [hvar, hasFixedValue, hasFixedValue]
    by_cases hunknown : ∃ text, label = .unknown text
    · obtain ⟨text, rfl⟩ := hunknown
      rw [hasFixedValue, hasFixedValue]
    have hne : ∀ text, label ≠ .unknown text := fun text h => hunknown ⟨text, h⟩
    rw [hasFixedValue_node hvar hne, hasFixedValue_node hvar hne, List.all_map, Bool.eq_iff_iff,
      List.all_eq_true, List.all_eq_true]
    exact forall₂_congr fun t ht => by rw [Function.comp, ih t ht]

end Tree

/-! ## Labels under a parent -/

def Label.under (label parent : Label) : Label :=
  match label with
  | .binary op => .binary (op.under (some parent))
  | label => label

/-- Under a parent a node is worth what it is worth alone with the operator which it applies
there. -/
theorem Arithmetic.nodeValue_eq_under (label parent : Label) (values : List α) :
    A.nodeValue x (some parent) label values = A.nodeValue x none (label.under parent) values := by
  cases label with
  | binary op =>
    show _ = A.nodeValue x none (.binary (op.under (some parent))) values
    by_cases hlen : values.length = 2
    · obtain ⟨l, r, rfl⟩ := List.length_eq_two.1 hlen
      show (op.under (some parent)).apply A l r = ((op.under (some parent)).under none).apply A l r
      rw [Operator.under_none]
    · rw [Tree.nodeValue_binary_of_ne A x hlen, Tree.nodeValue_binary_of_ne A x hlen]
  | _ => exact Tree.nodeValue_congr A values nofun fun _ => rfl

/-! ## Expressions and their trees -/

namespace Expression

/-- What a node is worth in place is the value of the tree below it under its parent's label. -/
theorem Linked.evaluate_eq_value {e : Expression} (he : e.Linked) (p : e.Place) :
    e.evaluate A x p = (e.subtree p).value A x (e.context p) := by
  induction p using induction_on_children with
  | step p ih =>
    have hvalues : ∀ c ∈ e.children p, e.evaluate A x c =
        (Tree.value A x (some (e.label p)) ∘ e.subtree) c := fun c hc => by
      rw [ih c hc, he.context_of_mem hc, Function.comp]
    rw [evaluate_eq, subtree_eq, Tree.value_node, List.map_map, List.map_congr_left hvalues]

theorem evaluate_ofTree (t : Tree) :
    (ofTree t).evaluate A x (ofTree t).root = t.value A x none := by
  rw [(linked_ofTree t).evaluate_eq_value, (linked_ofTree t).context_root,
    show (ofTree t).subtree (ofTree t).root = t from toTree_ofTree t]

/-! ## Nodes with one and two children -/

variable {e : Expression}

section Binary

variable {p l r : e.Place} {op : Operator} (hlabel : e.label p = .binary op)
  (hchildren : e.children p = [l, r])

include hlabel hchildren

theorem subtree_binary : e.subtree p = .binary op (e.subtree l) (e.subtree r) := by
  rw [subtree_eq, hlabel, hchildren]
  rfl

theorem evaluate_binary :
    e.evaluate A x p = (op.under (e.context p)).apply A (e.evaluate A x l) (e.evaluate A x r) := by
  rw [evaluate_eq, hlabel, hchildren]
  rfl

theorem Linked.context_operands (he : e.Linked) :
    e.context l = some (.binary op) ∧ e.context r = some (.binary op) := by
  rw [← hlabel]
  exact ⟨he.context_of_mem (by simp [hchildren]), he.context_of_mem (by simp [hchildren])⟩

end Binary

theorem subtree_leaf {p : e.Place} {label : Label} (hlabel : e.label p = label)
    (hchildren : e.children p = []) : e.subtree p = .leaf label := by
  rw [subtree_eq, hlabel, hchildren]
  rfl

section Unary

variable {p g : e.Place} {label : Label} (hlabel : e.label p = label)
  (hchildren : e.children p = [g])

include hlabel hchildren

theorem subtree_unary : e.subtree p = .unary label (e.subtree g) := by
  rw [subtree_eq, hlabel, hchildren]
  rfl

theorem Linked.context_operand (he : e.Linked) : e.context g = some label := by
  rw [← hlabel]
  exact he.context_of_mem (by simp [hchildren])

end Unary

end Expression

end Ordinate

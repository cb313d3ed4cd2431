import Mathlib.Algebra.Field.Rat
import Mathlib.Tactic.Abel
import Mathlib.Tactic.NormNum
import Ordinate.Proofs.Expression.Text
import Ordinate.Proofs.Parse.Cut
import Ordinate.Proofs.Tree.Value

/-!
# Chains from left to right

The tree of a chain leans to the right, and each node's parent decides which operator it applies.

* `Arithmetic.ofField` : a field, with any power, logarithm and reading of literals;
* `Chain.leftToRight` : the value of a chain whose operators are applied one after the other;
* `Chain.regroup`, `Chain.value_toTree` : the operators which, applied so, give the value of the
  tree;
* `Chain.regroup_eq_self_iff` : these are the chain's own unless a division follows on a division;
* `Chain.exchange`, `Chain.regroup_eq_exchange` : the same for products, as the rule by which `*` and
  `/` are exchanged;
* `Expression.exists_terms` : the pieces of a cut text are expressions of their own;
* `Expression.evaluate_sum`, `Expression.evaluate_product` : sums and products from left to right.
-/

namespace Ordinate

universe u v

variable {F : Type u}

/-- A field, with any power, logarithm and reading of literals. -/
def Arithmetic.ofField [Field F] (power : F → F → F) (log : F → F) (literal : String → F) :
    Arithmetic F where
  zero := 0
  add := (· + ·)
  subtract := (· - ·)
  multiply := (· * ·)
  divide := (· / ·)
  power := power
  log := log
  literal := literal

/-! ## Two groupings -/

/-- The operator which undoes another. -/
def Operator.inverse : Operator → Operator
  | add => subtract
  | subtract => add
  | multiply => divide
  | divide => multiply
  | power => power

/-- The operator in front of `w` in `(a op v) _ w`, if that is to be `a op (v inner w)`. -/
def Operator.through (op inner : Operator) : Operator :=
  match op with
  | subtract | divide => inner.inverse
  | add | multiply | power => inner

/-- The rational numbers, for texts without powers, logarithms and literals. -/
def Arithmetic.rational : Arithmetic ℚ :=
  .ofField (fun a _ => a) id fun _ => 0

namespace Chain

variable {α : Type u}

/-- The value of `acc`, then `op`, and then the chain, one operator after the other. -/
def foldFrom (A : Arithmetic α) (acc : α) (op : Operator) : Chain α → α
  | last v => op.apply A acc v
  | link v next rest => rest.foldFrom A (op.apply A acc v) next

def leftToRight (A : Arithmetic α) : Chain α → α
  | last v => v
  | link v op rest => rest.foldFrom A v op

/-- The rest of a chain behind an operator `written`, in place of which `met` is applied from the
left. -/
def regroupFrom (met written : Operator) : Chain α → Chain α
  | last a => last a
  | link a next rest =>
    let op := met.through (next.under (some (.binary written)))
    link a op (rest.regroupFrom op next)

/-- The chain with the operators which have to be applied from left to right for the value which its
tree has. -/
def regroup : Chain α → Chain α
  | last a => last a
  | link a op rest => link a op (rest.regroupFrom op op)

end Chain

theorem Operator.under_of_precedence_ne {op parent : Operator}
    (h : op.precedence ≠ parent.precedence) : op.under (some (.binary parent)) = op := by
  cases op <;> cases parent <;> first | rfl | exact absurd rfl h

theorem Operator.precedence_under (op parent : Operator) :
    (op.under (some (.binary parent))).precedence = op.precedence := by
  cases op <;> cases parent <;> rfl

theorem Operator.precedence_through (op inner : Operator) :
    (op.through inner).precedence = inner.precedence := by
  cases op <;> cases inner <;> rfl

/-- A tree is worth what it is worth alone under an operator which is looser than its own. -/
theorem Tree.Tighter.value_eq {A : Arithmetic F} {x : F} {p : Parse.Precedence} {op : Operator}
    {t : Tree} (ht : t.Tighter p) (hop : op.precedence = p) :
    t.value A x (some (.binary op)) = t.value A x none := by
  apply value_eq_of_not_changesUnder
  unfold Label.changesUnder
  cases hlabel : t.label with
  | binary own =>
    have hne : own.precedence ≠ op.precedence := by
      intro heq
      have := ht own hlabel
      rw [heq, hop] at this
      exact absurd this (Nat.lt_irrefl _)
    exact decide_eq_false fun h => h (Operator.under_of_precedence_ne hne)
  | _ => rfl

section Field

variable [Field F] {power : F → F → F} {log : F → F} {literal : String → F} {x : F}
  {p : Parse.Precedence}

theorem Operator.apply_apply {op inner : Operator} (h : op.precedence = inner.precedence)
    (hp : op.precedence ≠ .power) (a v w : F) :
    op.apply (.ofField power log literal) a (inner.apply (.ofField power log literal) v w) =
      (op.through inner).apply (.ofField power log literal)
        (op.apply (.ofField power log literal) a v) w := by
  cases op <;> cases inner <;> try cases h
  · show a + (v + w) = a + v + w
    abel
  · show a + (v - w) = a + v - w
    abel
  · show a - (v + w) = a - v - w
    abel
  · show a - (v - w) = a - v + w
    abel
  · show a * (v * w) = a * v * w
    exact (mul_assoc a v w).symm
  · show a * (v / w) = a * v / w
    exact (mul_div_assoc a v w).symm
  · show a / (v * w) = a / v / w
    exact (div_div a v w).symm
  · show a / (v / w) = a / v * w
    exact div_div_eq_mul_div a v w ▸ (mul_div_right_comm a w v)
  · exact absurd rfl hp

/-- What stands behind an operator, from its tree and from left to right. -/
theorem Chain.apply_value_toTree {c : Chain Tree} (hc : c.Flat p) (hp : p ≠ .power)
    {met written : Operator} (hmet : met.precedence = p) (hwritten : written.precedence = p)
    (a : F) :
    met.apply (.ofField power log literal) a
        (c.toTree.value (.ofField power log literal) x (some (.binary written))) =
      ((c.map (Tree.value (.ofField power log literal) x none)).regroupFrom met written).foldFrom
        (.ofField power log literal) a met := by
  -- `written` is the parent's label, `met` the operator which is applied from the left: they part
  -- behind a repeated division, so both vary in the induction.
  induction c generalizing a met written with
  | last t => rw [toTree, hc.value_eq hwritten, map, regroupFrom, foldFrom]
  | link t next rest ih =>
    obtain ⟨ht, hnext, hrest⟩ := hc
    have hinner : (next.under (some (.binary written))).precedence = p :=
      (Operator.precedence_under next written).trans hnext
    rw [toTree, Tree.value_binary, ht.value_eq hnext,
      Operator.apply_apply (hmet.trans hinner.symm) (hmet ▸ hp), map, regroupFrom, foldFrom]
    exact ih hrest ((Operator.precedence_through met _).trans hinner) hnext _

/-- The tree of a chain has the value of the regrouped chain. -/
theorem Chain.value_toTree {c : Chain Tree} (hc : c.Flat p) (hp : p ≠ .power) :
    c.toTree.value (.ofField power log literal) x none =
      (c.map (Tree.value (.ofField power log literal) x none)).regroup.leftToRight
        (.ofField power log literal) := by
  cases c with
  | last t => rfl
  | link t op rest =>
    obtain ⟨ht, hop, hrest⟩ := hc
    rw [toTree, Tree.value_binary, ht.value_eq hop, Operator.under_none,
      Chain.apply_value_toTree hrest hp hop hop]
    rfl

end Field

/-! ## Chains which need no regrouping -/

namespace Chain

variable {α : Type u}

theorem map_regroupFrom {β : Type v} (f : α → β) (met written : Operator) (c : Chain α) :
    (c.regroupFrom met written).map f = (c.map f).regroupFrom met written := by
  induction c generalizing met written with
  | last a => rfl
  | link a next rest ih => exact congrArg (link (f a) _) (ih _ next)

theorem map_regroup {β : Type v} (f : α → β) (c : Chain α) :
    c.regroup.map f = (c.map f).regroup := by
  cases c with
  | last a => rfl
  | link a op rest => exact congrArg (link (f a) op) (map_regroupFrom f op op rest)

theorem Flat.precedence_eq {p : Parse.Precedence} {c : Chain Tree} (hc : c.Flat p) :
    ∀ op ∈ c.operators, op.precedence = p := by
  induction c with
  | last t => nofun
  | link t op rest ih =>
    obtain ⟨-, hop, hrest⟩ := hc
    exact List.forall_mem_cons.2 ⟨hop, ih hrest⟩

/-- Two operators of one precedence keep their meaning from left to right, but for two
divisions. -/
theorem through_under_eq_iff {op next : Operator} (h : op.precedence = next.precedence) :
    op.through (next.under (some (.binary op))) = next ↔ ¬(op = .divide ∧ next = .divide) := by
  cases op <;> cases next <;> first | decide | cases h

theorem regroupFrom_eq_self_iff {p : Parse.Precedence} {op : Operator} (hop : op.precedence = p)
    {c : Chain α} (hc : ∀ op ∈ c.operators, op.precedence = p) :
    c.regroupFrom op op = c ↔ ¬[.divide, .divide] <:+: op :: c.operators := by
  induction c generalizing op with
  | last a => exact iff_of_true rfl fun h => absurd h.length_le (Nat.not_succ_le_self 1)
  | link a next rest ih =>
    have hnext : next.precedence = p := hc next (List.mem_cons_self ..)
    have hrest := ih hnext fun o ho => hc o (List.mem_cons_of_mem next ho)
    have hiff := through_under_eq_iff (hop.trans hnext.symm)
    rw [regroupFrom, operators, List.infix_cons_iff, not_or, List.cons_prefix_cons,
      List.cons_prefix_cons, ← hrest]
    constructor
    · intro h
      injection h with _ hmet htail
      rw [hmet] at htail
      exact ⟨fun hd => hiff.1 hmet ⟨hd.1.symm, hd.2.1.symm⟩, htail⟩
    · rintro ⟨hdivide, htail⟩
      rw [hiff.2 fun hd => hdivide ⟨hd.1.symm, hd.2.symm, List.nil_prefix⟩, htail]

/-- A chain of one precedence means from left to right what its tree means exactly if no division
follows directly behind another. -/
theorem regroup_eq_self_iff {p : Parse.Precedence} {c : Chain α}
    (hc : ∀ op ∈ c.operators, op.precedence = p) :
    c.regroup = c ↔ ¬[.divide, .divide] <:+: c.operators := by
  cases c with
  | last a => exact iff_of_true rfl fun h => absurd h.length_le (Nat.not_succ_le_zero 1)
  | link a op rest =>
    obtain ⟨hop, hrest⟩ := List.forall_mem_cons.1 hc
    rw [operators, ← regroupFrom_eq_self_iff hop hrest, regroup]
    exact ⟨fun h => (Chain.link.inj h).2.2, fun h => congrArg _ h⟩

/-! ## Products -/

/-- The rest of a product behind an operator `written`, in place of which `met` stands: `*` and `/`
change places behind and before each division. -/
def exchangeFrom (met written : Operator) : Chain α → Chain α
  | last a => last a
  | link a next rest =>
    let op := if written = .divide ∨ next = .divide then met.inverse else met
    link a op (rest.exchangeFrom op next)

/-- The product whose first operator is the first one of `c`, and each other one the one before it,
with `*` and `/` exchanged exactly if one of the two operators at these places in `c` is `/`. -/
def exchange : Chain α → Chain α
  | last a => last a
  | link a op rest => link a op (rest.exchangeFrom op op)

theorem through_under_eq_ite {met written next : Operator} (hmet : met.precedence = .product)
    (hwritten : written.precedence = .product) (hnext : next.precedence = .product) :
    met.through (next.under (some (.binary written))) =
      if written = .divide ∨ next = .divide then met.inverse else met := by
  cases met <;> cases hmet <;> cases written <;> cases hwritten <;> cases next <;> cases hnext <;>
    rfl

theorem regroupFrom_eq_exchangeFrom {met written : Operator} (hmet : met.precedence = .product)
    (hwritten : written.precedence = .product) {c : Chain α}
    (hc : ∀ op ∈ c.operators, op.precedence = .product) :
    c.regroupFrom met written = c.exchangeFrom met written := by
  induction c generalizing met written with
  | last a => rfl
  | link a next rest ih =>
    obtain ⟨hnext, hrest⟩ := List.forall_mem_cons.1 hc
    have hop : (met.through (next.under (some (.binary written)))).precedence = .product := by
      rw [Operator.precedence_through, Operator.precedence_under, hnext]
    rw [regroupFrom, exchangeFrom, ih hop hnext hrest, through_under_eq_ite hmet hwritten hnext]

/-- The operators which have to be applied from left to right are those of the product after the
exchange. -/
theorem regroup_eq_exchange {c : Chain α} (hc : ∀ op ∈ c.operators, op.precedence = .product) :
    c.regroup = c.exchange := by
  cases c with
  | last a => rfl
  | link a op rest =>
    obtain ⟨hop, hrest⟩ := List.forall_mem_cons.1 hc
    rw [regroup, exchange, regroupFrom_eq_exchangeFrom hop hop hrest]

end Chain

/-! ## Texts -/

namespace Expression

open Parse

/-- Each piece of the text writes an expression, and these form the chain `terms`. -/
def Terms (limits : Limits) (pieces : Chain (List Char)) (terms : Chain Expression) : Prop :=
  pieces.Forall₂ (fun piece term => ofText (String.ofList piece) limits = .ok term) terms

/-- A text without splits looser than `p` writes the tree of a chain, of which the things are
written by its pieces. -/
theorem exists_terms {limits : Limits} {text : List Char} {e : Expression} {p : Precedence}
    (hblank : ∀ c ∈ text, Text.isBlank c = false)
    (h : ofText (String.ofList text) limits = .ok e)
    (hlooser : ∀ q : Precedence, q.rank < p.rank → q.split? text = none) :
    ∃ c : Chain Tree, e = ofTree c.toTree ∧ c.Flat p ∧ c.operators = (p.cut text).operators ∧
      Terms limits (p.cut text) (c.map ofTree) := by
  obtain ⟨hlength, hbalanced, t, hreads, rfl⟩ := (ofText_ofList_eq_ok_iff hblank).1 h
  obtain ⟨c, rfl, hflat, hpieces⟩ := hreads.exists_chain (balanced_iff.1 hbalanced) hlooser
  refine ⟨c, rfl, hflat, hpieces.operators_eq.symm, hpieces.map fun piece t hpiece => ?_⟩
  have hblank' : ∀ c ∈ piece, Text.isBlank c = false := fun c hc =>
    hblank c (hpiece.infix_of.subset hc)
  exact (ofText_ofList_eq_ok_iff hblank').2
    ⟨hpiece.infix_of.length_le.trans hlength, balanced_iff.2 hpiece.balanced, t, hpiece.reads, rfl⟩

theorem map_evaluate_map_ofTree {A : Arithmetic F} {x : F} (c : Chain Tree) :
    (c.map ofTree).map (fun term => term.evaluate A x term.root) = c.map (Tree.value A x none) := by
  rw [Chain.map_map]
  exact congrArg (fun f => c.map f) (funext (evaluate_ofTree A x))

/-- A sum is worth what its terms, which are written by the pieces of its text, are worth from left
to right. -/
theorem evaluate_sum {limits : Limits} {text : List Char} {e : Expression}
    (hblank : ∀ c ∈ text, Text.isBlank c = false)
    (h : ofText (String.ofList text) limits = .ok e) :
    ∃ terms, Terms limits (Precedence.sum.cut text) terms ∧
      ∀ (F : Type u) [Field F] (power : F → F → F) (log : F → F) (literal : String → F) (x : F),
        e.evaluate (.ofField power log literal) x e.root =
          (terms.map fun term => term.evaluate (.ofField power log literal) x term.root).leftToRight
            (.ofField power log literal) := by
  obtain ⟨c, rfl, hflat, -, hterms⟩ :=
    exists_terms (p := .sum) hblank h fun q hq => absurd hq (Nat.not_lt_zero q.rank)
  refine ⟨c.map ofTree, hterms, fun F _ power log literal x => ?_⟩
  have hregroup : c.regroup = c := by
    refine (Chain.regroup_eq_self_iff hflat.precedence_eq).2 fun hdivide => ?_
    cases hflat.precedence_eq .divide (hdivide.subset (List.mem_cons_self ..))
  rw [map_evaluate_map_ofTree, evaluate_ofTree, Chain.value_toTree hflat (by decide),
    ← Chain.map_regroup, hregroup]

/-- The text `x*x-x-x+x` is worth `((25-5)-5)+5` and not `25-(5-(5+5))`. -/
theorem evaluate_sum_differences :
    ∃ terms, Terms {} (Precedence.sum.cut "x*x-x-x+x".toList) terms ∧
      (ofText "x*x-x-x+x").map (fun e => e.evaluate .rational 5 e.root) = .ok 20 ∧
      (terms.map fun term => term.evaluate .rational 5 term.root).leftToRight .rational = 20 := by
  have hblank : ∀ c ∈ "x*x-x-x+x".toList, Text.isBlank c = false :=
    forall_mem_of_all (by decide)
  obtain ⟨e, he⟩ : ∃ e, e = ofTree (.binary .subtract (.binary .multiply (.leaf .var) (.leaf .var))
      (.binary .subtract (.leaf .var) (.binary .add (.leaf .var) (.leaf .var)))) :=
    ⟨_, rfl⟩
  have htext : ofText "x*x-x-x+x" = .ok e := by
    rw [he]
    decide +kernel
  have hevaluate : e.evaluate .rational 5 e.root = 20 := by
    rw [he, evaluate_ofTree]
    show (5 : ℚ) * 5 - (5 + (5 - 5)) = 20
    norm_num
  obtain ⟨terms, hterms, hvalue⟩ := evaluate_sum hblank htext
  refine ⟨terms, hterms, ?_, (hvalue ℚ _ _ _ 5).symm.trans hevaluate⟩
  rw [htext]
  exact congrArg Except.ok hevaluate

/-- A product without sums is worth what its factors are worth from left to right after the exchange
of `*` and `/`; and its factors as they are, if no division follows directly behind another. -/
theorem evaluate_product {limits : Limits} {text : List Char} {e : Expression}
    (hblank : ∀ c ∈ text, Text.isBlank c = false)
    (h : ofText (String.ofList text) limits = .ok e) (hsum : Precedence.sum.split? text = none) :
    ∃ factors, Terms limits (Precedence.product.cut text) factors ∧
      ∀ (F : Type u) [Field F] (power : F → F → F) (log : F → F) (literal : String → F) (x : F),
        (e.evaluate (.ofField power log literal) x e.root =
          (factors.map fun factor =>
            factor.evaluate (.ofField power log literal) x factor.root).exchange.leftToRight
              (.ofField power log literal)) ∧
        (¬[.divide, .divide] <:+: (Precedence.product.cut text).operators →
          e.evaluate (.ofField power log literal) x e.root =
            (factors.map fun factor =>
              factor.evaluate (.ofField power log literal) x factor.root).leftToRight
                (.ofField power log literal)) := by
  have hlooser : ∀ q : Precedence, q.rank < Precedence.product.rank → q.split? text = none := by
    intro q hq
    cases q with
    | sum => exact hsum
    | product | power => exact absurd hq (by decide)
  obtain ⟨c, rfl, hflat, hoperators, hterms⟩ := exists_terms hblank h hlooser
  refine ⟨c.map ofTree, hterms, fun F _ power log literal x => ?_⟩
  rw [map_evaluate_map_ofTree, evaluate_ofTree, Chain.value_toTree hflat (by decide)]
  have hproduct := hflat.precedence_eq
  constructor
  · rw [Chain.regroup_eq_exchange]
    rwa [Chain.operators_map]
  · intro hdivide
    rw [← Chain.map_regroup, (Chain.regroup_eq_self_iff hproduct).2]
    rwa [hoperators]

/-- The text `x/x*x` is worth `(3/3)*3` and not `3/(3*3)`. -/
theorem evaluate_product_quotient :
    ∃ factors, Terms {} (Precedence.product.cut "x/x*x".toList) factors ∧
      (ofText "x/x*x").map (fun e => e.evaluate .rational 3 e.root) = .ok 3 ∧
      (factors.map fun factor =>
        factor.evaluate .rational 3 factor.root).exchange.leftToRight .rational = 3 ∧
      (factors.map fun factor =>
        factor.evaluate .rational 3 factor.root).leftToRight .rational = 3 := by
  have hblank : ∀ c ∈ "x/x*x".toList, Text.isBlank c = false :=
    forall_mem_of_all (by decide)
  obtain ⟨e, he⟩ : ∃ e, e = ofTree (.binary .divide (.leaf .var)
      (.binary .multiply (.leaf .var) (.leaf .var))) :=
    ⟨_, rfl⟩
  have htext : ofText "x/x*x" = .ok e := by
    rw [he]
    decide +kernel
  have hevaluate : e.evaluate .rational 3 e.root = 3 := by
    rw [he, evaluate_ofTree]
    show (3 : ℚ) / (3 / 3) = 3
    norm_num
  have hoperators : (Precedence.product.cut "x/x*x".toList).operators = [.divide, .multiply] := rfl
  obtain ⟨factors, hfactors, hvalue⟩ := evaluate_product hblank htext rfl
  obtain ⟨hexchange, hplain⟩ := hvalue ℚ (fun a _ => a) id (fun _ => 0) 3
  refine ⟨factors, hfactors, ?_, hexchange.symm.trans hevaluate,
    (hplain (by rw [hoperators]; decide)).symm.trans hevaluate⟩
  rw [htext]
  exact congrArg Except.ok hevaluate

/-- Behind another division a division is not undone by its parent: `x/x/x` is `x/(x/x)`. -/
theorem evaluate_divisions :
    ∃ e factor, ofText "x/x/x" = .ok e ∧ Precedence.sum.split? "x/x/x".toList = none ∧
      Terms {} (Precedence.product.cut "x/x/x".toList)
        (.link factor .divide (.link factor .divide (.last factor))) ∧
      factor.evaluate .rational 2 factor.root = 2 ∧ e.evaluate .rational 2 e.root = 2 ∧
        ((Chain.link factor .divide (.link factor .divide (.last factor))).map fun factor =>
          factor.evaluate .rational 2 factor.root).leftToRight .rational = 1 / 2 := by
  have hcut : Precedence.product.cut "x/x/x".toList =
      .link ['x'] .divide (.link ['x'] .divide (.last ['x'])) := rfl
  have hfactor : ofText (String.ofList ['x']) = .ok (ofTree (.leaf .var)) := by decide +kernel
  have hvalue : (ofTree (.leaf .var)).evaluate .rational 2 (ofTree (.leaf .var)).root = 2 := by
    rw [evaluate_ofTree]
    rfl
  refine ⟨ofTree (.binary .divide (.leaf .var) (.binary .divide (.leaf .var) (.leaf .var))),
    ofTree (.leaf .var), by decide +kernel, rfl, ?_, hvalue, ?_, ?_⟩
  · rw [hcut]
    exact .link hfactor (.link hfactor (.last hfactor))
  · rw [evaluate_ofTree]
    show (2 : ℚ) / (2 / 2) = 2
    norm_num
  · rw [Chain.map, Chain.map, Chain.map, hvalue]
    show (2 : ℚ) / 2 / 2 = 1 / 2
    norm_num

end Expression

end Ordinate

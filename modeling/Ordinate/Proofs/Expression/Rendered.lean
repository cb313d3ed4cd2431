import Ordinate.Proofs.Tree.Legible

/-!
# Expressions and their lines

The lines of an expression say of each node its level and its name. The levels give back the shape:
below a node stands what follows until the next line which is not deeper. With the shape the names
give back the labels, if the tree is legible and each node has its operands.

* `Tree.rows`, `Tree.rows_injective` : the levels and names of the nodes, and that they determine
  such a tree;
* `Tree.render_injective` : so do its lines;
* `Expression.legible_of_reflTransGen` : texts and rules give such trees;
* `Expression.eq_of_render_eq` : so the lines of an expression of a text, or of a derivative of one,
  determine it;
* `Expression.label_of_name` : and the name of a node gives its label, unless it is the word `log`.
-/

namespace Ordinate

/-- A list has one front of members with a property, if what follows does not start with such a
member. -/
theorem eq_and_eq_of_append_eq {β : Type} (P : β → Prop) {a b x y : List β} (ha : ∀ i ∈ a, P i)
    (hb : ∀ i ∈ b, P i) (hx : ∀ i ∈ x.head?, ¬P i) (hy : ∀ i ∈ y.head?, ¬P i)
    (h : a ++ x = b ++ y) : a = b ∧ x = y := by
  -- What one front has more than the other starts what follows the other.
  obtain ⟨c, rfl, rfl⟩ | ⟨c, rfl, rfl⟩ := List.append_eq_append_iff.1 h
  · cases c with
    | nil => simp
    | cons i c => exact absurd (hb i (by simp)) (hx i (by simp))
  · cases c with
    | nil => simp
    | cons i c => exact absurd (ha i (by simp)) (hy i (by simp))

namespace Tree

/-! ## Levels and names -/

/-- The level and the name of each node, in the order of the lines. -/
def rows (level : Nat) (t : Tree) : List (Nat × String) :=
  (t.outline level).map fun (l, label) => (l, label.name)

theorem rows_node (level : Nat) (label : Label) (children : List Tree) :
    (node label children).rows level =
      (level, label.name) :: children.flatMap (rows (level + 1)) := by
  rw [rows, outline, outlineList_eq_flatMap, List.map_cons, List.map_flatMap]
  rfl

theorem le_of_mem_rows {t : Tree} {level : Nat} : ∀ row ∈ t.rows level, level ≤ row.1 := by
  induction t generalizing level with
  | node label children ih =>
    rw [rows_node, List.forall_mem_cons]
    refine ⟨Nat.le_refl level, fun row hrow => ?_⟩
    obtain ⟨t, ht, hrow⟩ := List.mem_flatMap.1 hrow
    exact Nat.le_of_succ_le (ih t ht row hrow)

theorem isBlank_of_mem_rows {t : Tree} (ht : t.Legible) {level : Nat} :
    ∀ row ∈ t.rows level, ∀ c ∈ row.2.toList, Text.isBlank c = false := by
  induction t generalizing level with
  | node label children ih =>
    obtain ⟨hlabel, hchildren⟩ := legible_node.1 ht
    rw [rows_node, List.forall_mem_cons]
    refine ⟨Label.isBlank_of_mem_name hlabel, fun row hrow => ?_⟩
    obtain ⟨t, ht, hrow⟩ := List.mem_flatMap.1 hrow
    exact ih t ht (hchildren t ht) row hrow

theorem head?_flatMap_rows {ts : List Tree} {level : Nat} :
    ∀ row ∈ (ts.flatMap (rows level)).head?, row.1 ≤ level := by
  cases ts with
  | nil => exact nofun
  | cons t ts =>
    obtain ⟨label, children⟩ := t
    rw [List.flatMap_cons, rows_node, List.cons_append, List.head?_cons]
    rintro row ⟨rfl⟩
    exact Nat.le_refl level

/-- The rows of a tree end where a row is not deeper than its first one. -/
theorem rows_append_inj {t u : Tree} {level : Nat} {a b : List (Nat × String)}
    (ha : ∀ row ∈ a.head?, row.1 ≤ level) (hb : ∀ row ∈ b.head?, row.1 ≤ level)
    (h : t.rows level ++ a = u.rows level ++ b) : t.rows level = u.rows level ∧ a = b := by
  have hdeeper : ∀ ts : List Tree, ∀ row ∈ ts.flatMap (rows (level + 1)), level < row.1 := by
    intro ts row hrow
    obtain ⟨t, -, hrow⟩ := List.mem_flatMap.1 hrow
    exact le_of_mem_rows row hrow
  obtain ⟨label, ts⟩ := t
  obtain ⟨label', us⟩ := u
  rw [rows_node, rows_node, List.cons_append, List.cons_append] at h
  obtain ⟨hfirst, hrest⟩ := List.cons.inj h
  obtain ⟨hbelow, hab⟩ := eq_and_eq_of_append_eq (fun row => level < row.1) (hdeeper ts)
    (hdeeper us) (fun row hrow => Nat.not_lt.2 (ha row hrow))
    (fun row hrow => Nat.not_lt.2 (hb row hrow)) hrest
  exact ⟨by rw [rows_node, rows_node, hfirst, hbelow], hab⟩

theorem flatMap_rows_injective {ts us : List Tree} {level : Nat}
    (hrows : ∀ t ∈ ts, ∀ u ∈ us, t.rows level = u.rows level → t = u)
    (h : ts.flatMap (rows level) = us.flatMap (rows level)) : ts = us := by
  induction ts generalizing us with
  | nil =>
    cases us with
    | nil => rfl
    | cons u us =>
      cases u
      rw [List.flatMap_cons, rows_node] at h
      cases h
  | cons t ts ih =>
    cases us with
    | nil =>
      cases t
      rw [List.flatMap_cons, rows_node] at h
      cases h
    | cons u us =>
      rw [List.flatMap_cons, List.flatMap_cons] at h
      obtain ⟨htu, hrest⟩ := rows_append_inj head?_flatMap_rows head?_flatMap_rows h
      rw [hrows t (by simp) u (by simp) htu,
        ih (fun t ht u hu => hrows t (by simp [ht]) u (by simp [hu])) hrest]

/-- There is one tree with given levels and names, if each node has its operands and its label can
be told from others. -/
theorem rows_injective {t u : Tree} (ht : t.Saturated) (hu : u.Saturated) (hlt : t.Legible)
    (hlu : u.Legible) {level : Nat} (h : t.rows level = u.rows level) : t = u := by
  induction t generalizing u level with
  | node label ts ih =>
    obtain ⟨label', us⟩ := u
    obtain ⟨hlen, hts⟩ := ht
    obtain ⟨hlen', hus⟩ := hu
    obtain ⟨hlabel, hlts⟩ := legible_node.1 hlt
    obtain ⟨hlabel', hlus⟩ := legible_node.1 hlu
    rw [rows_node, rows_node] at h
    obtain ⟨hfirst, hbelow⟩ := List.cons.inj h
    have hchildren : ts = us := flatMap_rows_injective
      (fun t ht u hu => ih t ht (hts t ht) (hus u hu) (hlts t ht) (hlus u hu)) hbelow
    have harity : label.arity = label'.arity := by rw [← hlen, ← hlen', hchildren]
    have hname : label.name = label'.name := congrArg Prod.snd hfirst
    rw [Label.eq_of_name_eq hlabel hlabel' hname harity, hchildren]

/-! ## Lines -/

def line (row : Nat × String) : List Char :=
  List.replicate row.1 '\t' ++ row.2.toList ++ ['\n']

theorem toList_render (t : Tree) (level : Nat) :
    (t.render level).toList = (t.rows level).flatMap line := by
  rw [render, String.toList_ofList, rows, List.flatMap_map]
  rfl

/-- A line ends where its line end is, and its name starts behind the last tab. -/
theorem line_append_inj {row row' : Nat × String} {a b : List Char}
    (hrow : ∀ c ∈ row.2.toList, Text.isBlank c = false)
    (hrow' : ∀ c ∈ row'.2.toList, Text.isBlank c = false)
    (h : line row ++ a = line row' ++ b) : row = row' ∧ a = b := by
  have htab : ∀ (name rest : List Char), (∀ c ∈ name, Text.isBlank c = false) →
      ∀ c ∈ (name ++ '\n' :: rest).head?, ¬c = '\t' := by
    rintro name rest hname c hc rfl
    cases name with
    | nil => cases hc
    | cons i name =>
      cases hc
      exact absurd (hname '\t' (by simp)) (by decide)
  have hend : ∀ (rest : List Char), ∀ c ∈ ('\n' :: rest).head?, ¬Text.isBlank c = false := by
    rintro rest c ⟨rfl⟩
    decide
  rw [line, line, List.append_assoc, List.append_assoc, List.append_assoc, List.append_assoc] at h
  obtain ⟨hlevel, hrest⟩ := eq_and_eq_of_append_eq (· = '\t')
    (fun _ => List.eq_of_mem_replicate) (fun _ => List.eq_of_mem_replicate)
    (htab _ a hrow) (htab _ b hrow') h
  obtain ⟨hname, hab⟩ := eq_and_eq_of_append_eq (Text.isBlank · = false) hrow hrow' (hend a)
    (hend b) hrest
  have hlevels : row.1 = row'.1 := by simpa using congrArg List.length hlevel
  exact ⟨Prod.ext hlevels (String.toList_inj.1 hname), (List.cons.inj hab).2⟩

theorem flatMap_line_injective {l m : List (Nat × String)}
    (hl : ∀ row ∈ l, ∀ c ∈ row.2.toList, Text.isBlank c = false)
    (hm : ∀ row ∈ m, ∀ c ∈ row.2.toList, Text.isBlank c = false)
    (h : l.flatMap line = m.flatMap line) : l = m := by
  have hne : ∀ row, line row ≠ [] := fun row => by simp [line]
  induction l generalizing m with
  | nil =>
    cases m with
    | nil => rfl
    | cons row m => exact absurd (List.append_eq_nil_iff.1 h.symm).1 (hne row)
  | cons row l ih =>
    cases m with
    | nil => exact absurd (List.append_eq_nil_iff.1 h).1 (hne row)
    | cons row' m =>
      rw [List.forall_mem_cons] at hl hm
      rw [List.flatMap_cons, List.flatMap_cons] at h
      obtain ⟨rfl, hrest⟩ := line_append_inj hl.1 hm.1 h
      rw [ih hl.2 hm.2 hrest]

/-- There is one tree with given lines, if each node has its operands and its label can be told from
others. -/
theorem render_injective {t u : Tree} (ht : t.Saturated) (hu : u.Saturated) (hlt : t.Legible)
    (hlu : u.Legible) {level : Nat} (h : t.render level = u.render level) : t = u := by
  have hlines := congrArg String.toList h
  rw [toList_render, toList_render] at hlines
  exact rows_injective ht hu hlt hlu
    (flatMap_line_injective (isBlank_of_mem_rows hlt) (isBlank_of_mem_rows hlu) hlines)

end Tree

/-! ## Expressions -/

namespace Expression

variable {limits limits' : Parse.Limits} {text text' : String} {e e' d d' : Expression}

theorem legible_of_ofText (h : ofText text limits = .ok e) : e.toTree.Legible := by
  obtain ⟨-, -, t, hreads, rfl⟩ := ofText_eq_ok_iff.1 h
  rw [toTree_ofTree]
  exact hreads.legible fun _ => Text.isBlank_eq_false_of_mem_stripBlank

/-- A text's expression and its derivatives of every order have sound links and all operands, and
each label can be told from others. -/
theorem linked_of_reflTransGen (h : ofText text limits = .ok e)
    (hd : Relation.ReflTransGen IsDerivative e d) : d.Linked ∧ d.Saturated ∧ d.toTree.Legible :=
  (linked_of_ofText h).kept_of_reflTransGen Tree.keptByRules_legible
    (fun context _ => (Tree.legible_applied context).2) (saturated_of_ofText h)
    (legible_of_ofText h) hd

theorem legible_of_reflTransGen (h : ofText text limits = .ok e)
    (hd : Relation.ReflTransGen IsDerivative e d) : d.toTree.Saturated ∧ d.toTree.Legible := by
  obtain ⟨hlinked, hsat, hlegible⟩ := linked_of_reflTransGen h hd
  exact ⟨hlinked.saturated_iff.1 hsat, hlegible⟩

theorem ofTree_toTree_of_reflTransGen (h : ofText text limits = .ok e)
    (hd : Relation.ReflTransGen IsDerivative e d) : ofTree d.toTree = d := by
  cases hd with
  | refl =>
    obtain ⟨-, -, t, -, rfl⟩ := ofText_eq_ok_iff.1 h
    rw [toTree_ofTree]
  | tail _ hstep =>
    obtain ⟨p, rfl⟩ := hstep
    rw [derivative_eq_ofTree, toTree_ofTree]

/-- Of expressions which texts write, and of their derivatives of every order, no two have the same
lines: with equal lines they are the same row of nodes, with the same labels and links, and so have
the same values and the same derivative. -/
theorem eq_of_render_eq (he : ofText text limits = .ok e) (he' : ofText text' limits' = .ok e')
    (hd : Relation.ReflTransGen IsDerivative e d) (hd' : Relation.ReflTransGen IsDerivative e' d')
    (h : d.render d.root 0 = d'.render d'.root 0) :
    d = d' ∧ (∀ x : Float, d.value x = d'.value x) ∧
      d.derivative d.root = d'.derivative d'.root := by
  obtain ⟨hsat, hlegible⟩ := legible_of_reflTransGen he hd
  obtain ⟨hsat', hlegible'⟩ := legible_of_reflTransGen he' hd'
  have htree : d.toTree = d'.toTree := Tree.render_injective hsat hsat' hlegible hlegible' h
  have heq : d = d' := by
    rw [← ofTree_toTree_of_reflTransGen he hd, htree, ofTree_toTree_of_reflTransGen he' hd']
  subst heq
  exact ⟨rfl, fun _ => rfl, rfl⟩

def plusWord : Expression :=
  ofTree (.binary .add (.leaf .var) (.leaf (.unknown "log")))

def plusFive : Expression :=
  ofTree (.binary .add (.leaf .var) (.leaf (.literal "5.0")))

theorem eq_of_render_eq_plusWord :
    ofText "x+log" = .ok plusWord ∧ ofText "x+5" = .ok plusFive ∧
      plusWord.derivative plusWord.root = plusFive.derivative plusFive.root := by
  have hword : ofText "x+log" = .ok plusWord := by decide +kernel
  have hfive : ofText "x+5" = .ok plusFive := by decide +kernel
  have hrender : (plusWord.derivative plusWord.root).render
      (plusWord.derivative plusWord.root).root 0 =
        (plusFive.derivative plusFive.root).render (plusFive.derivative plusFive.root).root 0 := by
    decide +kernel
  obtain ⟨heq, -⟩ := eq_of_render_eq hword hfive (.single ⟨_, rfl⟩) (.single ⟨_, rfl⟩) hrender
  exact ⟨hword, hfive, heq⟩

/-! ### Names -/

/-- In a text's expression and its derivatives of every order, the name of a node gives its label
and tells how many children it has. The one exception is a leaf with the word `log`, whose name is
read as the logarithm's. -/
theorem label_of_name (he : ofText text limits = .ok e)
    (hd : Relation.ReflTransGen IsDerivative e d) (p : d.Place) :
    (d.label p ≠ .unknown "log" →
      Label.ofName (d.label p).name = d.label p ∧
        (Label.ofName (d.label p).name).arity = (d.node p).children.length) ∧
    (d.label p = .unknown "log" →
      Label.ofName (d.label p).name = .log ∧ (d.node p).children = []) := by
  obtain ⟨hlinked, hsat, hlegible⟩ := linked_of_reflTransGen he hd
  have hlabel : (d.label p).Legible := everywhere_subtree_iff.1 hlegible p (hlinked.below_root p)
  constructor
  · intro hlog
    have hname := Label.ofName_name hlabel hlog
    exact ⟨hname, by rw [hname, hsat p]⟩
  · intro hlog
    have hlen := hsat p
    rw [hlog] at hlen ⊢
    exact ⟨rfl, List.length_eq_zero_iff.1 hlen⟩

def wordTimes : Expression :=
  ofTree (.binary .add (.binary .multiply (.leaf (.unknown "log")) (.leaf .var))
    (.binary .power (.leaf (.literal "2.0")) (.leaf .var)))

/-- The derivative of `log*x+2^x`, in which both the word and a logarithm stand. -/
def wordTimesSlope : Expression :=
  wordTimes.derivative wordTimes.root

def wordTimesSlope.word : wordTimesSlope.Place :=
  ⟨6, by decide +kernel⟩

def wordTimesSlope.logarithm : wordTimesSlope.Place :=
  ⟨14, by decide +kernel⟩

theorem label_of_name_wordTimes :
    ofText "log*x+2^x" = .ok wordTimes ∧
      wordTimesSlope.label wordTimesSlope.logarithm = .log ∧
      Label.ofName (wordTimesSlope.label wordTimesSlope.logarithm).name =
        wordTimesSlope.label wordTimesSlope.logarithm ∧
      wordTimesSlope.label wordTimesSlope.word = .unknown "log" ∧
      Label.ofName (wordTimesSlope.label wordTimesSlope.word).name = .log ∧
      (wordTimesSlope.node wordTimesSlope.word).children = [] := by
  have htext : ofText "log*x+2^x" = .ok wordTimes := by decide +kernel
  have hlog : wordTimesSlope.label wordTimesSlope.logarithm = .log := by decide +kernel
  have hword : wordTimesSlope.label wordTimesSlope.word = .unknown "log" := by decide +kernel
  have hslope : Relation.ReflTransGen IsDerivative wordTimes wordTimesSlope :=
    .single ⟨wordTimes.root, rfl⟩
  obtain ⟨hname, -⟩ := (label_of_name htext hslope wordTimesSlope.logarithm).1 (by simp [hlog])
  exact ⟨htext, hlog, hname, hword, (label_of_name htext hslope wordTimesSlope.word).2 hword⟩

theorem exists_ofName_name_ne :
    ∃ e : Expression, ofText "log" = .ok e ∧
      Label.ofName (e.label e.root).name ≠ e.label e.root ∧
      (Label.ofName (e.label e.root).name).arity ≠ (e.node e.root).children.length :=
  ⟨single (.unknown "log"), by decide +kernel, by decide +kernel, by decide +kernel⟩

end Expression

end Ordinate

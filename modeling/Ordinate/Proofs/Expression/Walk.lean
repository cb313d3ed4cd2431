import Mathlib.Data.List.FinRange
import Ordinate.Proofs.Expression.Subtree

/-!
# Walks over the nodes of an expression

* `Expression.Linked.below_root` : every node stands below the root;
* `Expression.walk` : the nodes from one down, each before its children;
* `Expression.Linked.walk_root_perm` : a walk from the root meets every node once.
-/

namespace Ordinate.Expression

variable {e : Expression}

namespace Linked

theorem below_root (he : e.Linked) (p : e.Place) : e.Below e.root p := by
  induction hn : p.val using Nat.strongRecOn generalizing p with
  | ind n ih =>
    subst hn
    by_cases hroot : p = e.root
    · rw [hroot]
      exact .refl
    obtain ⟨q, hq⟩ := he.exists_parent p hroot
    have hbelow := ih q.val (he.parent_lt hq) q rfl
    exact hbelow.tail (he.mem_children.2 hq)

theorem eq_of_mem_children (he : e.Linked) {p q c : e.Place} (hp : c ∈ e.children p)
    (hq : c ∈ e.children q) : p = q := by
  have h := (he.mem_children.1 hp).symm.trans (he.mem_children.1 hq)
  exact Fin.ext (Option.some.inj h)

theorem below_or_below (he : e.Linked) {a b q : e.Place} (ha : e.Below a q) (hb : e.Below b q) :
    e.Below a b ∨ e.Below b a := by
  have hunique : Relator.RightUnique (Function.swap fun a b => b ∈ e.children a) :=
    fun _ _ _ => he.eq_of_mem_children
  obtain h | h := Relation.ReflTransGen.total_of_right_unique hunique ha.swap hb.swap
  · exact .inr h.swap
  · exact .inl h.swap

theorem eq_of_below_of_mem_children (he : e.Linked) {p c d : e.Place} (hc : c ∈ e.children p)
    (hd : d ∈ e.children p) (h : e.Below c d) : c = d := by
  obtain heq | ⟨q, hcq, hdq⟩ := Relation.ReflTransGen.cases_tail h
  · exact heq.symm
  · have hle : c ≤ p := he.eq_of_mem_children hdq hd ▸ Below.le hcq
    exact absurd hle (Nat.not_le.2 (lt_of_mem_children hc))

end Linked

/-! ## Walks -/

/-- The nodes from `p` down, each before its children. -/
def walk (e : Expression) : e.Place → List e.Place :=
  e.fold fun p walks => p :: walks.flatten

theorem walk_eq (e : Expression) (p : e.Place) :
    e.walk p = p :: (e.children p).flatMap e.walk :=
  fold_eq e _ p

theorem mem_walk {p q : e.Place} : q ∈ e.walk p ↔ e.Below p q := by
  induction p using induction_on_children with
  | step p ih =>
    rw [walk_eq, List.mem_cons, List.mem_flatMap, below_iff]
    exact or_congr_right (exists_congr fun c => and_congr_right fun hc => ih c hc)

namespace Linked

theorem nodup_children_places (he : e.Linked) (p : e.Place) : (e.children p).Nodup :=
  .of_map Fin.val (he.map_val_children p ▸ he.nodup_children p)

theorem nodup_walk (he : e.Linked) (p : e.Place) : (e.walk p).Nodup := by
  induction p using induction_on_children with
  | step p ih =>
    rw [walk_eq, List.nodup_cons, List.nodup_flatMap]
    refine ⟨fun hmem => ?_, ih, ?_⟩
    · obtain ⟨c, hc, hp⟩ := List.mem_flatMap.1 hmem
      exact absurd (mem_walk.1 hp).le (Nat.not_le.2 (lt_of_mem_children hc))
    · -- A node below two children would put one of them below the other.
      refine (he.nodup_children_places p).imp_of_mem fun {c d} hc hd hne q hcq hdq => hne ?_
      obtain h | h := he.below_or_below (mem_walk.1 hcq) (mem_walk.1 hdq)
      · exact he.eq_of_below_of_mem_children hc hd h
      · exact (he.eq_of_below_of_mem_children hd hc h).symm

/-- A walk from the root meets every node once. -/
theorem walk_root_perm (he : e.Linked) : (e.walk e.root).Perm (List.finRange e.size) := by
  refine (List.perm_ext_iff_of_nodup (he.nodup_walk e.root) (List.nodup_finRange _)).2 fun p => ?_
  exact iff_of_true (mem_walk.2 (he.below_root p)) (List.mem_finRange p)

end Linked

end Ordinate.Expression

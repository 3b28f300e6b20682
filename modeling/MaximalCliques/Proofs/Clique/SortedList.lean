import Mathlib.Data.List.Perm.Subperm
import Mathlib.Data.List.Sort
import Mathlib.Order.Defs.LinearOrder
import MaximalCliques.Clique.SortedList

/-!
# Sorted lists as sets and multisets

The intersection of two non-decreasing lists is non-decreasing and holds every element as often as
the list that has fewer of it. A list that passes as a subset of another is a sublist of it. Since a
non-decreasing list is determined by how often it holds each element, the two walks agree: a list
passes as a subset of another if it is their intersection.
-/

namespace MaximalCliques
namespace SortedList

variable {α : Type} [LinearOrder α] {as bs : List α}

theorem intersection_sublist (as bs : List α) : (intersection as bs).Sublist as := by
  fun_induction intersection as bs with
  | case1 => exact List.Sublist.refl []
  | case2 => exact List.nil_sublist _
  | case3 a as b bs _ ih => exact ih.cons_cons a
  | case4 a as b bs _ ih => exact ih.cons a
  | case5 a as b bs _ ih => exact ih

theorem count_eq_zero_of_lt {x b : α} (hb : (b :: bs).Pairwise (· ≤ ·)) (hx : x < b) :
    (b :: bs).count x = 0 := by
  rw [List.count_eq_zero, List.mem_cons, not_or]
  refine ⟨hx.ne, fun hmem => ?_⟩
  exact absurd ((List.pairwise_cons.mp hb).1 x hmem) (not_le.mpr hx)

theorem count_intersection (ha : as.Pairwise (· ≤ ·)) (hb : bs.Pairwise (· ≤ ·)) (x : α) :
    (intersection as bs).count x = min (as.count x) (bs.count x) := by
  fun_induction intersection as bs with
  | case1 => simp
  | case2 => simp
  | case3 a as b bs heq ih =>
    obtain rfl := compare_eq_iff_eq.mp heq
    rw [List.count_cons, List.count_cons, List.count_cons, ih ha.of_cons hb.of_cons]
    omega
  | case4 a as b bs hlt ih =>
    rw [ih ha.of_cons hb]
    by_cases hxa : x = a
    · rw [count_eq_zero_of_lt hb (hxa ▸ compare_lt_iff_lt.mp hlt)]
      simp
    · rw [List.count_cons_of_ne (Ne.symm hxa)]
  | case5 a as b bs hgt ih =>
    rw [ih ha hb.of_cons]
    by_cases hxb : x = b
    · rw [count_eq_zero_of_lt ha (hxb ▸ compare_gt_iff_gt.mp hgt)]
      simp
    · rw [List.count_cons_of_ne (Ne.symm hxb)]

theorem mem_intersection (ha : as.Pairwise (· ≤ ·)) (hb : bs.Pairwise (· ≤ ·)) (x : α) :
    x ∈ intersection as bs ↔ x ∈ as ∧ x ∈ bs := by
  rw [← List.count_pos_iff, count_intersection ha hb, Nat.lt_min, List.count_pos_iff,
    List.count_pos_iff]

theorem sublist_of_isSubset (h : isSubset as bs = true) : as.Sublist bs := by
  induction as generalizing bs with
  | nil => exact List.nil_sublist bs
  | cons a as ih =>
    rw [isSubset] at h
    have hdrop := List.dropWhile_sublist (fun b => (compare b a).isLT) (l := bs)
    split at h
    · cases h
    · rename_i b rest hrest
      obtain ⟨heq, hsub⟩ := Bool.and_eq_true_iff.mp h
      obtain rfl : b = a := compare_eq_iff_eq.mp (Ordering.isEq_iff_eq_eq.mp heq)
      rw [hrest] at hdrop
      exact ((ih hsub).cons_cons b).trans hdrop

theorem isSubset_cons_cons (a b : α) (as bs : List α) :
    isSubset (a :: as) (b :: bs) =
      match compare b a with
      | .lt => isSubset (a :: as) bs
      | .eq => isSubset as bs
      | .gt => false := by
  rw [isSubset, List.dropWhile_cons]
  cases h : compare b a with
  | lt => simp [isSubset]
  | eq => simp [h]
  | gt => simp [h]

theorem isSubset_of_sublist (hb : bs.Pairwise (· ≤ ·)) (h : as.Sublist bs) :
    isSubset as bs = true := by
  induction bs generalizing as with
  | nil =>
    obtain rfl := List.sublist_nil.mp h
    rfl
  | cons b bs ih =>
    cases as with
    | nil => rfl
    | cons a as =>
      rw [isSubset_cons_cons]
      have hba : b ≤ a := by
        rcases List.mem_cons.mp (h.subset List.mem_cons_self) with rfl | ha
        · exact le_rfl
        · exact List.rel_of_pairwise_cons hb ha
      rcases hba.lt_or_eq with hlt | rfl
      · rw [compare_lt_iff_lt.mpr hlt]
        exact ih hb.of_cons (h.of_cons_of_ne hlt.ne')
      · rw [compare_eq_iff_eq.mpr rfl]
        exact ih hb.of_cons (List.cons_sublist_cons.mp h)

theorem isSubset_iff_subset (ha : as.Pairwise (· < ·)) (hb : bs.Pairwise (· < ·)) :
    isSubset as bs = true ↔ as ⊆ bs := by
  constructor
  · exact fun h => (sublist_of_isSubset h).subset
  · intro h
    have hsub := List.sublist_of_subperm_of_pairwise (List.Nodup.subperm ha.nodup h) ha hb
    exact isSubset_of_sublist (hb.imp le_of_lt) hsub

/-! ## Sorted lists as multisets -/

theorem intersection_comm (ha : as.Pairwise (· ≤ ·)) (hb : bs.Pairwise (· ≤ ·)) :
    intersection as bs = intersection bs as := by
  have hperm : (intersection as bs).Perm (intersection bs as) := by
    rw [List.perm_iff_count]
    intro x
    rw [count_intersection ha hb, count_intersection hb ha, Nat.min_comm]
  exact hperm.eq_of_pairwise' (ha.sublist (intersection_sublist as bs))
    (hb.sublist (intersection_sublist bs as))

/-- A sublist of a sorted list is one that holds no element more often. -/
theorem isSubset_iff_count_le (ha : as.Pairwise (· ≤ ·)) (hb : bs.Pairwise (· ≤ ·)) :
    isSubset as bs = true ↔ ∀ x, as.count x ≤ bs.count x := by
  constructor
  · exact fun h x => (sublist_of_isSubset h).count_le x
  · intro h
    have hsub : as.Sublist bs :=
      List.sublist_of_subperm_of_pairwise (List.subperm_iff_count.mpr h) ha hb
    exact isSubset_of_sublist hb hsub

theorem intersection_eq_left_iff (ha : as.Pairwise (· ≤ ·)) (hb : bs.Pairwise (· ≤ ·)) :
    intersection as bs = as ↔ ∀ x, as.count x ≤ bs.count x := by
  constructor
  · intro h x
    rw [← h, count_intersection ha hb]
    exact Nat.min_le_right _ _
  · intro h
    have hperm : (intersection as bs).Perm as := by
      rw [List.perm_iff_count]
      intro x
      rw [count_intersection ha hb, Nat.min_eq_left (h x)]
    exact (intersection_sublist as bs).eq_of_length hperm.length_eq

/-- The intersection of two non-decreasing lists is non-decreasing, holds every element as often as
the list that has fewer of it, and is the same the other way round. If both lists ascend, then so
does it, and its elements are those of both. A non-decreasing list passes as a subset of another
exactly when it holds no element more often, which is when the intersection is the list itself. -/
theorem intersection_isSubset_multiset (ha : as.Pairwise (· ≤ ·)) (hb : bs.Pairwise (· ≤ ·)) :
    (intersection as bs).Pairwise (· ≤ ·) ∧
    (∀ x, (intersection as bs).count x = min (as.count x) (bs.count x)) ∧
    (as.Pairwise (· < ·) → bs.Pairwise (· < ·) →
      (intersection as bs).Pairwise (· < ·) ∧
        ∀ x, x ∈ intersection as bs ↔ x ∈ as ∧ x ∈ bs) ∧
    intersection as bs = intersection bs as ∧
    (isSubset as bs = true ↔ ∀ x, as.count x ≤ bs.count x) ∧
    (isSubset as bs = true ↔ intersection as bs = as) := by
  refine ⟨ha.sublist (intersection_sublist as bs), count_intersection ha hb, fun hlt _ => ?_,
    intersection_comm ha hb, isSubset_iff_count_le ha hb, ?_⟩
  · exact ⟨hlt.sublist (intersection_sublist as bs), mem_intersection ha hb⟩
  · rw [isSubset_iff_count_le ha hb, intersection_eq_left_iff ha hb]

/-- The first list has one 1 too many to be a subset, the second one 2. -/
theorem intersection_isSubset_multiset_repeats :
    intersection [1, 1, 2, 5] [1, 2, 2, 5] = intersection [1, 2, 2, 5] [1, 1, 2, 5] ∧
      (intersection [1, 1, 2, 5] [1, 2, 2, 5]).count 1 = 1 ∧
      isSubset [1, 1, 2, 5] [1, 2, 2, 5] = false ∧
      isSubset [1, 2, 5] [1, 2, 2, 5] = true := by
  have hleft : [1, 1, 2, 5].Pairwise (· ≤ ·) := by decide
  have hright : [1, 2, 2, 5].Pairwise (· ≤ ·) := by decide
  have hshared : [1, 2, 5].Pairwise (· ≤ ·) := by decide
  obtain ⟨-, hcount, -, hcomm, hsub, -⟩ := intersection_isSubset_multiset hleft hright
  obtain ⟨-, -, -, -, hsub', -⟩ := intersection_isSubset_multiset hshared hright
  refine ⟨hcomm, hcount 1, ?_, hsub'.mpr ?_⟩
  · rw [Bool.eq_false_iff]
    intro hall
    exact absurd (hsub.mp hall 1) (by decide)
  · exact List.subperm_iff_count.mp (List.Sublist.subperm (by decide))

end SortedList
end MaximalCliques

import Mathlib.Data.List.Lex
import Mathlib.Data.List.Sort
import MaximalCliques.Clique.Canonical

/-!
# The order of cliques

Cliques are compared lexicographically, which is the order of lists of numbers. Sorting keeps the
vertices of a clique and the cliques of a list, and what is sorted depends on nothing else: two
cliques have the same sorted form exactly when they have the same vertices.
-/

namespace MaximalCliques
namespace Clique

theorem precedes_iff_not_lt (c d : Clique) : precedes c d = true ↔ ¬ d < c := by
  fun_induction precedes c d with
  | case1 d => simp
  | case2 a as => simp
  | case3 a as bs ih =>
    rw [ih, List.cons_lt_cons_iff]
    simp
  | case4 a as b bs hne =>
    rw [List.cons_lt_cons_iff, decide_eq_true_iff]
    omega

theorem precedes_iff_le (c d : Clique) : precedes c d = true ↔ c ≤ d := by
  rw [precedes_iff_not_lt, not_lt]

theorem sort_perm (c : Clique) : (sort c).Perm c := List.mergeSort_perm c _

theorem pairwise_sort (c : Clique) : (sort c).Pairwise (· ≤ ·) := List.pairwise_mergeSort' (· ≤ ·) c

theorem sort_eq_sort_iff {c d : Clique} : sort c = sort d ↔ c.Perm d := by
  constructor
  · intro h
    exact c.sort_perm.symm.trans (h ▸ d.sort_perm)
  · intro h
    have hperm := (c.sort_perm.trans h).trans d.sort_perm.symm
    exact hperm.eq_of_pairwise' c.pairwise_sort d.pairwise_sort

theorem sortList_perm (cs : List Clique) : (sortList cs).Perm cs := List.mergeSort_perm cs _

theorem pairwise_sortList (cs : List Clique) : (sortList cs).Pairwise (· ≤ ·) := by
  have hsorted : (sortList cs).Pairwise fun c d => precedes c d = true := by
    apply List.pairwise_mergeSort
    · intro c d e hcd hde
      rw [precedes_iff_le] at *
      exact hcd.trans hde
    · intro c d
      rw [Bool.or_eq_true, precedes_iff_le, precedes_iff_le]
      exact le_total c d
  exact hsorted.imp fun {c d} h => (precedes_iff_le c d).mp h

end Clique
end MaximalCliques

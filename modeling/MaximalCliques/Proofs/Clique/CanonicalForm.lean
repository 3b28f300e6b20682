import Mathlib.Data.List.Perm.Basic
import MaximalCliques.Proofs.Clique.CanonicalOrder

/-!
# The canonical form of a list of cliques

Lists of cliques tell the same if one becomes the other when its cliques, and the vertices inside
each of them, are put into another order. Such lists have the same canonical form and no others do,
so comparing canonical forms neither overlooks a difference nor invents one. The canonical form
itself is the one list among them that is sorted inside and outside.
-/

namespace MaximalCliques
namespace Clique

variable {cs ds : List Clique}

/-- The second list has the cliques of the first in some order, each with its vertices in some
order. -/
def Reordered (cs ds : List Clique) : Prop := ∃ es, List.Forall₂ List.Perm cs es ∧ es.Perm ds

/-- The vertices of every clique do not descend, and neither do the cliques in lexicographic
order. -/
structure IsCanonical (cs : List Clique) : Prop where
  inside : ∀ c ∈ cs, c.Pairwise (· ≤ ·)
  outside : cs.Pairwise (· ≤ ·)

/-! ## Sorting inside -/

theorem forall₂_perm_map_sort (cs : List Clique) : List.Forall₂ List.Perm cs (cs.map sort) := by
  rw [List.forall₂_map_right_iff, List.forall₂_same]
  exact fun c _ => (sort_perm c).symm

theorem map_sort_eq_of_forall₂ (h : List.Forall₂ List.Perm cs ds) : cs.map sort = ds.map sort := by
  rw [← List.forall₂_eq_eq_eq, List.forall₂_map_left_iff, List.forall₂_map_right_iff]
  exact h.imp fun _ _ hperm => sort_eq_sort_iff.mpr hperm

theorem reordered_iff_perm_map_sort : Reordered cs ds ↔ (cs.map sort).Perm (ds.map sort) := by
  constructor
  · rintro ⟨es, hinside, houtside⟩
    rw [map_sort_eq_of_forall₂ hinside]
    exact houtside.map sort
  · intro h
    -- The cliques change places first, and then each takes the order that it has in `ds`.
    obtain ⟨es, hinside, houtside⟩ := List.perm_comp_forall₂ h
      ((forall₂_perm_map_sort ds).flip.imp fun _ _ hperm => List.Perm.symm hperm)
    rw [List.forall₂_map_left_iff] at hinside
    exact ⟨es, hinside.imp fun c _ hperm => (sort_perm c).symm.trans hperm, houtside⟩

/-! ## Sorting outside -/

theorem sortList_eq_sortList_iff : sortList cs = sortList ds ↔ cs.Perm ds := by
  constructor
  · intro h
    exact (sortList_perm cs).symm.trans (h ▸ sortList_perm ds)
  · intro h
    have hperm := ((sortList_perm cs).trans h).trans (sortList_perm ds).symm
    exact hperm.eq_of_pairwise' (pairwise_sortList cs) (pairwise_sortList ds)

theorem canonical_eq_canonical_iff : canonical cs = canonical ds ↔ Reordered cs ds := by
  rw [canonical, canonical, sortList_eq_sortList_iff, reordered_iff_perm_map_sort]

theorem reordered_canonical (cs : List Clique) : Reordered cs (canonical cs) :=
  ⟨cs.map sort, forall₂_perm_map_sort cs, (sortList_perm _).symm⟩

theorem isCanonical_canonical (cs : List Clique) : IsCanonical (canonical cs) where
  inside := by
    intro c hc
    obtain ⟨d, -, rfl⟩ := List.mem_map.mp ((sortList_perm _).mem_iff.mp hc)
    exact d.pairwise_sort
  outside := pairwise_sortList _

theorem IsCanonical.map_sort_eq (h : IsCanonical cs) : cs.map sort = cs := by
  conv_rhs => rw [← List.map_id cs]
  refine List.map_congr_left fun c hc => ?_
  exact (sort_perm c).eq_of_pairwise' (pairwise_sort c) (h.inside c hc)

theorem IsCanonical.canonical_eq (h : IsCanonical cs) : canonical cs = cs := by
  rw [canonical, h.map_sort_eq]
  exact (sortList_perm cs).eq_of_pairwise' (pairwise_sortList cs) h.outside

/-- Two lists have the same canonical form exactly when one becomes the other by putting its cliques
and their vertices into another order. The form is such a list itself, sorted inside and outside,
and the only one that is; so it is its own canonical form. -/
theorem canonical_exact (cs ds : List Clique) :
    (canonical cs = canonical ds ↔ Reordered cs ds) ∧
    Reordered cs (canonical cs) ∧
    (∀ c ∈ canonical cs, c.Pairwise (· ≤ ·)) ∧
    (canonical cs).Pairwise (· ≤ ·) ∧
    (∀ es, Reordered cs es → IsCanonical es → es = canonical cs) ∧
    canonical (canonical cs) = canonical cs := by
  have hsorted := isCanonical_canonical cs
  refine ⟨canonical_eq_canonical_iff, reordered_canonical cs, hsorted.inside, hsorted.outside,
    fun es hes hcanonical => ?_, hsorted.canonical_eq⟩
  rw [canonical_eq_canonical_iff.mpr hes, hcanonical.canonical_eq]

/-- Cliques and vertices that are repeated stay so. -/
theorem canonical_exact_repeats :
    Reordered [[2, 1], [3, 0, 3], [1, 2]] [[0, 3, 3], [1, 2], [1, 2]] ∧
      IsCanonical [[0, 3, 3], [1, 2], [1, 2]] ∧
      canonical [[2, 1], [3, 0, 3], [1, 2]] = [[0, 3, 3], [1, 2], [1, 2]] := by
  have hreordered : Reordered [[2, 1], [3, 0, 3], [1, 2]] [[0, 3, 3], [1, 2], [1, 2]] :=
    ⟨[[1, 2], [0, 3, 3], [1, 2]], .cons (by decide) (.cons (by decide) (.cons (by decide) .nil)),
      by decide⟩
  have hcanonical : IsCanonical [[0, 3, 3], [1, 2], [1, 2]] := ⟨by decide, by decide⟩
  obtain ⟨-, -, -, -, honly, -⟩ := canonical_exact [[2, 1], [3, 0, 3], [1, 2]] []
  exact ⟨hreordered, hcanonical, (honly _ hreordered hcanonical).symm⟩

end Clique
end MaximalCliques

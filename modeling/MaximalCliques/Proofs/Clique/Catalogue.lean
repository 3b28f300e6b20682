import MaximalCliques.Proofs.Clique.CanonicalOrder
import MaximalCliques.Proofs.Search.Enumeration

/-!
# Catalogues of cliques

A catalogue names the sets with a property in canonical form: the vertices of every clique ascend,
and so do the cliques in lexicographic order. There is one catalogue of a property at most, and
whatever enumerates the property becomes it when it is brought into canonical order.
-/

namespace MaximalCliques

/-- The cliques name exactly the sets with the property, each once and in canonical order. -/
structure Catalogues (cs : List Clique) (P : Finset ℕ → Prop) : Prop where
  ascending : ∀ c ∈ cs, c.Pairwise (· < ·)
  sorted : cs.Pairwise (· < ·)
  mem_iff : ∀ C, C ∈ cs.map List.toFinset ↔ P C

namespace Catalogues

variable {cs ds : List Clique} {P Q : Finset ℕ → Prop}

theorem congr (h : Catalogues cs P) (hPQ : ∀ C, P C ↔ Q C) : Catalogues cs Q :=
  ⟨h.ascending, h.sorted, fun C => (h.mem_iff C).trans (hPQ C)⟩

theorem mem_iff_ascending (h : Catalogues cs P) (c : Clique) :
    c ∈ cs ↔ c.Pairwise (· < ·) ∧ P c.toFinset := by
  constructor
  · exact fun hc => ⟨h.ascending c hc, (h.mem_iff _).mp (List.mem_map_of_mem hc)⟩
  · rintro ⟨hasc, hP⟩
    obtain ⟨d, hd, hset⟩ := List.mem_map.mp ((h.mem_iff _).mpr hP)
    -- ascending cliques with the same vertices are equal
    have heq : d = c := (h.ascending d hd).eq_of_mem_iff hasc fun v => by
      rw [← List.mem_toFinset, hset, List.mem_toFinset]
    exact heq ▸ hd

theorem unique (h : Catalogues cs P) (h' : Catalogues ds P) : cs = ds :=
  h.sorted.eq_of_mem_iff h'.sorted fun c => by
    rw [h.mem_iff_ascending, h'.mem_iff_ascending]

end Catalogues

namespace Clique

theorem toFinset_sort (c : Clique) : (sort c).toFinset = c.toFinset :=
  List.toFinset_eq_of_perm _ _ c.sort_perm

theorem map_toFinset_map_sort (cs : List Clique) :
    (cs.map sort).map List.toFinset = cs.map List.toFinset := by
  rw [List.map_map]
  exact List.map_congr_left fun c _ => c.toFinset_sort

theorem length_canonical (cs : List Clique) : (canonical cs).length = cs.length := by
  rw [canonical, (sortList_perm _).length_eq, List.length_map]

end Clique

open Clique

theorem Enumerates.catalogues_canonical {cs : List Clique} {P : Finset ℕ → Prop}
    (h : Enumerates cs P) : Catalogues (canonical cs) P := by
  have hperm : (canonical cs).Perm (cs.map sort) := sortList_perm _
  have hnodup : (canonical cs).Nodup := by
    rw [hperm.nodup_iff]
    have hsets := h.distinct
    rw [← map_toFinset_map_sort] at hsets
    exact hsets.of_map
  refine ⟨fun c hc => ?_, ?_, fun C => ?_⟩
  · obtain ⟨d, hd, rfl⟩ := List.mem_map.mp (hperm.mem_iff.mp hc)
    have hd' : (sort d).Nodup := d.sort_perm.nodup_iff.mpr (h.nodup d hd)
    exact (d.pairwise_sort.and hd').imp fun hle => lt_of_le_of_ne hle.1 hle.2
  · exact ((pairwise_sortList _).and hnodup).imp fun hle => lt_of_le_of_ne hle.1 hle.2
  · rw [(hperm.map List.toFinset).mem_iff, map_toFinset_map_sort, h.mem_iff]

end MaximalCliques

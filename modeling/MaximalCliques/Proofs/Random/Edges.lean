import Mathlib.Algebra.BigOperators.Intervals
import MaximalCliques.Proofs.Graph.Assembly
import MaximalCliques.Random.Graph

/-!
# The possible edges

The edges of a complete graph are listed once each, the higher vertex first. Different edges from this
list make a graph that lists the same edges, in its own order. Leaving out those that are picked is
choosing the others, so both ways of picking give as many edges as are asked for.
-/

namespace MaximalCliques

variable {order size : ℕ} {picked edges : List Edge}

@[simp] theorem mem_allEdges (e : Edge) : e ∈ allEdges order ↔ e.2 < e.1 ∧ e.1 < order := by
  obtain ⟨a, b⟩ := e
  simp only [allEdges, List.mem_flatMap, List.mem_map, List.mem_range, Prod.mk.injEq]
  constructor
  · rintro ⟨a, ha, b, hb, rfl, rfl⟩
    exact ⟨hb, ha⟩
  · rintro ⟨hb, ha⟩
    exact ⟨a, ha, b, hb, rfl, rfl⟩

theorem nodup_allEdges (order : ℕ) : (allEdges order).Nodup :=
  nodup_flatMap_map_mk List.nodup_range fun _ => List.nodup_range

theorem length_allEdges (order : ℕ) : (allEdges order).length = mostEdges order := by
  have hsum := Finset.sum_range_id order
  rw [mostEdges, ← hsum, allEdges, List.length_flatMap]
  simp only [List.length_map, List.length_range]
  rfl

theorem length_filter_not_mem_picked (hnodup : picked.Nodup) (hsub : picked ⊆ allEdges order) :
    ((allEdges order).filter (· ∉ picked)).length = mostEdges order - picked.length := by
  have hpicked : ((allEdges order).filter (· ∈ picked)).Perm picked := by
    apply (List.perm_ext_iff_of_nodup ((nodup_allEdges order).filter _) hnodup).mpr
    intro e
    simp only [List.mem_filter, decide_eq_true_eq]
    exact and_iff_right_of_imp fun he => hsub he
  have hsplit := List.length_eq_length_filter_add (l := allEdges order) (· ∈ picked)
  simp only [hpicked.length_eq, length_allEdges, ← decide_not] at hsplit
  omega

/-! ## Half of them -/

theorem edgesOfPicked_subset (hsub : picked ⊆ allEdges order) :
    edgesOfPicked order size picked ⊆ allEdges order := by
  unfold edgesOfPicked
  split_ifs
  · exact List.filter_subset_self _
  · exact hsub

theorem nodup_edgesOfPicked (hnodup : picked.Nodup) : (edgesOfPicked order size picked).Nodup := by
  unfold edgesOfPicked
  split_ifs
  · exact (nodup_allEdges order).filter _
  · exact hnodup

theorem length_edgesOfPicked (hsize : size ≤ mostEdges order) (hnodup : picked.Nodup)
    (hsub : picked ⊆ allEdges order) (hlength : picked.length = pickTarget order size) :
    (edgesOfPicked order size picked).length = size := by
  unfold edgesOfPicked
  unfold pickTarget at hlength
  split_ifs at hlength ⊢
  · rw [length_filter_not_mem_picked hnodup hsub]
    omega
  · exact hlength

namespace Graph

variable {S : Type} [VertexSet S]

variable [LawfulVertexSet S]

variable (S) in
theorem exists_ofEdges_perm (hsub : edges ⊆ allEdges order) (hnodup : edges.Nodup) :
    ∃ g : Graph S, ofEdges order edges = .ok g ∧ g.order = order ∧ g.edges.Perm edges := by
  have hgood : ∀ e ∈ edges, e.1 < order ∧ e.2 < order ∧ e.1 ≠ e.2 := by
    intro e he
    obtain ⟨hlt, horder⟩ := (mem_allEdges e).mp (hsub he)
    exact ⟨horder, hlt.trans horder, hlt.ne'⟩
  obtain ⟨g, hg⟩ := exists_ofEdges_eq_ok_iff (S := S).mpr hgood
  refine ⟨g, hg, order_of_ofEdges hg, ?_⟩
  apply (List.perm_ext_iff_of_nodup g.nodup_edges hnodup).mpr
  rintro ⟨v, w⟩
  rw [mem_edges, adj_of_ofEdges hg]
  constructor
  · rintro ⟨hlt, hmem | hmem⟩
    · exact hmem
    · exact absurd hlt (not_lt.mpr ((mem_allEdges _).mp (hsub hmem)).1.le)
  · exact fun hmem => ⟨((mem_allEdges _).mp (hsub hmem)).1, .inl hmem⟩

end Graph
end MaximalCliques

import MaximalCliques.Proofs.Graph.Width
import MaximalCliques.Proofs.Search.Roots

/-!
# The roots split the graph

Every vertex with later neighbours in the degeneracy order is a root, with these as its candidates
and its earlier neighbours excluded. Each edge is therefore a candidate of exactly one root, and a
clique of two or more vertices lies below exactly one root, the member of it that comes first.
-/

namespace MaximalCliques

open VertexSet LawfulVertexSet

variable {S : Type} [VertexSet S]

namespace Root

/-- The candidates of the root are the later neighbours of its vertex, the earlier ones are
excluded. -/
structure Splits (g : Graph S) (order : List ℕ) (root : Root S) : Prop where
  candidates_eq : (toList root.frame.candidates).toFinset = g.laterNeighbours order root.vertex
  excluded_eq : (toList root.frame.excluded).toFinset = g.earlierNeighbours order root.vertex

variable [LawfulVertexSet S] {g : Graph S}

theorem splits_ofVertex {us ws : List ℕ} {v : ℕ} {earlier : S} (hnd : (us ++ v :: ws).Nodup)
    (hall : ∀ u ∈ g.adjacency.support, u ∈ us ++ v :: ws)
    (hearlier : ∀ u, u ∈ toList earlier ↔ u ∈ us) :
    Splits g (us ++ v :: ws) (ofVertex g v earlier) := by
  constructor
  · ext w
    have hcand := Set.ext_iff.mp (candidateSet_ofVertex g v earlier) w
    rw [List.mem_toFinset, g.mem_laterNeighbours]
    refine hcand.trans (and_congr_right fun hadj : g.adjacency.Adj v w => ?_)
    have hw := hall w (g.adjacency.mem_support.mpr ⟨v, hadj.symm⟩)
    calc w ∉ toList earlier ↔ ¬ Before (us ++ v :: ws) w v := by rw [hearlier, Before.left_iff hnd]
      _ ↔ Before (us ++ v :: ws) v w := Before.not_iff hnd hw (by simp) hadj.ne'
  · ext w
    have hexcl := mem_intersection (g.neighbours v) earlier w
    have hbefore : Before (us ++ v :: ws) w v ↔ w ∈ toList earlier := by
      rw [Before.left_iff hnd, hearlier]
    rw [List.mem_toFinset, g.mem_earlierNeighbours, g.adjacency.adj_comm]
    exact hexcl.trans (and_congr_right fun _ => hbefore.symm)

theorem append_perm_of_mem_among {vs : List ℕ} {earlier : S} {root : Root S}
    (hroot : root ∈ among g vs earlier) :
    (toList root.frame.candidates ++ toList root.frame.excluded).Perm
      (toList (g.neighbours root.vertex)) := by
  obtain ⟨v, earlier, rfl, -⟩ := exists_of_mem_among g hroot
  have hdisj : (toList (ofVertex g v earlier).frame.candidates).Disjoint
      (toList (ofVertex g v earlier).frame.excluded) :=
    fun w hw hw' => separated_ofVertex g v earlier w hw hw'
  refine (List.perm_ext_iff_of_nodup ((nodup_toList _).append (nodup_toList _) hdisj)
    (nodup_toList _)).mpr fun w => List.mem_append.trans ?_
  exact Set.ext_iff.mp (vertexSet_ofVertex g v earlier) w

theorem among_eq {us vs : List ℕ} {earlier : S} (hnd : (us ++ vs).Nodup)
    (hall : ∀ u ∈ g.adjacency.support, u ∈ us ++ vs)
    (hearlier : ∀ u, u ∈ toList earlier ↔ u ∈ us) :
    (among g vs earlier).map vertex =
        vs.filter (fun v => (g.laterNeighbours (us ++ vs) v).Nonempty) ∧
      ∀ root ∈ among g vs earlier, Splits g (us ++ vs) root := by
  induction vs generalizing us earlier with
  | nil => simp [among]
  | cons v vs ih =>
    have hsplits := splits_ofVertex hnd hall hearlier
    have hnext : us ++ v :: vs = us ++ [v] ++ vs := List.append_cons us v vs
    obtain ⟨hmap, hrest⟩ := ih (hnext ▸ hnd) (hnext ▸ hall) fun u => by
      rw [mem_insert earlier v, hearlier, List.mem_append, List.mem_singleton, or_comm]
    rw [← hnext] at hmap hrest
    have hcand : (toList (ofVertex g v earlier).frame.candidates).toFinset =
      g.laterNeighbours (us ++ v :: vs) v := hsplits.candidates_eq
    by_cases hnil : toList (ofVertex g v earlier).frame.candidates = []
    · have hempty : g.laterNeighbours (us ++ v :: vs) v = ∅ := by simpa [hnil] using hcand.symm
      rw [among_cons, if_pos hnil, List.nil_append]
      exact ⟨by simpa [hempty] using hmap, hrest⟩
    · have hne : (g.laterNeighbours (us ++ v :: vs) v).Nonempty :=
        hcand ▸ List.toFinset_nonempty_iff _ |>.mpr hnil
      rw [among_cons, if_neg hnil, List.singleton_append, List.map_cons, hmap]
      refine ⟨?_, List.forall_mem_cons.mpr ⟨hsplits, hrest⟩⟩
      simp only [List.filter_cons, hne, decide_true, if_true]
      rfl

end Root

namespace Graph

variable [LawfulVertexSet S] (g : Graph S)

theorem roots_eq :
    g.roots.map Root.vertex =
        g.degeneracyOrder.filter (fun v => (g.laterNeighbours g.degeneracyOrder v).Nonempty) ∧
      ∀ root ∈ g.roots, root.Splits g g.degeneracyOrder := by
  have hnd : ([] ++ g.degeneracyOrder).Nodup := g.nodup_degeneracyOrder
  have hall : ∀ v ∈ g.adjacency.support, v ∈ [] ++ g.degeneracyOrder := fun v =>
    (g.mem_degeneracyOrder v).mpr
  have hnone : ∀ v, v ∈ toList (withCapacity g.order : S) ↔ v ∈ ([] : List ℕ) := fun v => by
    simp [withCapacity, toList_empty]
  have hroots := Root.among_eq hnd hall hnone
  rwa [List.nil_append] at hroots

theorem nodup_map_vertex_roots : (g.roots.map Root.vertex).Nodup := by
  rw [g.roots_eq.1]
  exact g.nodup_degeneracyOrder.filter _

theorem size_candidates_roots {root : Root S} (hroot : root ∈ g.roots) :
    VertexSet.size root.frame.candidates =
      (g.laterNeighbours g.degeneracyOrder root.vertex).card := by
  rw [size_eq_length, ← (g.roots_eq.2 root hroot).candidates_eq,
    List.toFinset_card_of_nodup (nodup_toList _)]

theorem map_size_candidates_roots :
    g.roots.map (fun root => VertexSet.size root.frame.candidates) =
      (g.degeneracyOrder.filter fun v =>
        (g.laterNeighbours g.degeneracyOrder v).Nonempty).map fun v =>
          (g.laterNeighbours g.degeneracyOrder v).card := by
  rw [← g.roots_eq.1, List.map_map]
  exact List.map_congr_left fun root hroot => g.size_candidates_roots hroot

theorem total_size_candidates_roots :
    total (g.roots.map fun root => VertexSet.size root.frame.candidates) = g.edges.length := by
  have hall : ∀ v ∈ g.adjacency.support, v ∈ g.degeneracyOrder := fun v =>
    (g.mem_degeneracyOrder v).mpr
  rw [total_eq_sum, map_size_candidates_roots, ← List.sum_toFinset _
    (g.nodup_degeneracyOrder.filter _), List.toFinset_filter,
    ← g.sum_card_laterNeighbours g.nodup_degeneracyOrder hall]
  refine Finset.sum_filter_of_ne fun v _ hne => ?_
  exact decide_eq_true (Finset.card_ne_zero.mp hne)

theorem mem_degeneracyOrder_of_mem_clique {C : Finset ℕ} (hC : g.adjacency.IsClique C)
    (hcard : 2 ≤ C.card) {v : ℕ} (hv : v ∈ C) : v ∈ g.degeneracyOrder := by
  obtain ⟨w, -, hadj⟩ := exists_adj_of_mem_clique hC hcard hv
  exact (g.mem_degeneracyOrder v).mpr (g.adjacency.mem_support.mpr ⟨w, hadj⟩)

/-- The first member of a clique is a root that has the other members among its candidates. -/
theorem exists_root_of_first {C : Finset ℕ} (hC : g.adjacency.IsClique C) (hcard : 2 ≤ C.card)
    {v : ℕ} (hv : v ∈ C) (hfind : g.degeneracyOrder.find? (· ∈ C) = some v) :
    ∃ root ∈ g.roots, root.vertex = v ∧ ∀ w ∈ C.erase v, w ∈ toList root.frame.candidates := by
  have hlater : C.erase v ⊆ g.laterNeighbours g.degeneracyOrder v := by
    intro w hw
    obtain ⟨hne, hmem⟩ := Finset.mem_erase.mp hw
    apply g.filter_adj_subset_laterNeighbours
      (fun u => g.mem_degeneracyOrder_of_mem_clique hC hcard) hfind
    exact Finset.mem_filter.mpr ⟨hmem, hC hv hmem hne.symm⟩
  have hne : (C.erase v).Nonempty := by
    rw [← Finset.card_pos, Finset.card_erase_of_mem hv]
    omega
  have hvertex : v ∈ g.roots.map Root.vertex := by
    rw [g.roots_eq.1, List.mem_filter]
    exact ⟨g.mem_degeneracyOrder_of_mem_clique hC hcard hv, decide_eq_true (hne.mono hlater)⟩
  obtain ⟨root, hroot, rfl⟩ := List.mem_map.mp hvertex
  refine ⟨root, hroot, rfl, fun w hw => ?_⟩
  rw [← List.mem_toFinset, (g.roots_eq.2 root hroot).candidates_eq]
  exact hlater hw

/-- No other root has a clique below it than the one at the first member. -/
theorem vertex_eq_of_first {C : Finset ℕ} {v : ℕ} (hv : v ∈ C)
    (hfind : g.degeneracyOrder.find? (· ∈ C) = some v) {root : Root S} (hroot : root ∈ g.roots)
    (hmem : root.vertex ∈ C)
    (hcand : ∀ w ∈ C.erase root.vertex, w ∈ toList root.frame.candidates) : root.vertex = v := by
  by_contra hne
  have hlater : v ∈ g.laterNeighbours g.degeneracyOrder root.vertex := by
    rw [← (g.roots_eq.2 root hroot).candidates_eq, List.mem_toFinset]
    exact hcand v (Finset.mem_erase.mpr ⟨Ne.symm hne, hv⟩)
  exact Before.not_of_find? g.nodup_degeneracyOrder hfind hmem
    ((g.mem_laterNeighbours v).mp hlater).2

/-- The roots stand, in degeneracy order, at the vertices with later neighbours, each once. The
candidates of a root are the later neighbours of its vertex and the excluded vertices the earlier
ones, so together they are its neighbours; over all roots there are as many candidates as edges. For
a clique of two or more vertices there is exactly one root in it that has the other members as
candidates, and its vertex is the member that comes first. -/
theorem roots_decompose :
    (g.roots.map Root.vertex =
        g.degeneracyOrder.filter fun v => (g.laterNeighbours g.degeneracyOrder v).Nonempty) ∧
    (g.roots.map Root.vertex).Nodup ∧
    (∀ root ∈ g.roots,
      (toList root.frame.candidates).toFinset =
          g.laterNeighbours g.degeneracyOrder root.vertex ∧
        (toList root.frame.excluded).toFinset =
          g.earlierNeighbours g.degeneracyOrder root.vertex ∧
        (toList root.frame.candidates ++ toList root.frame.excluded).Perm
          (toList (g.neighbours root.vertex))) ∧
    total (g.roots.map fun root => VertexSet.size root.frame.candidates) = g.edges.length ∧
    ∀ C : Finset ℕ, g.adjacency.IsClique C → 2 ≤ C.card →
      ∃ root,
        (g.roots.filter fun root : Root S => root.vertex ∈ C ∧
          ∀ w ∈ C.erase root.vertex, w ∈ toList root.frame.candidates) = [root] ∧
        g.degeneracyOrder.find? (· ∈ C) = some root.vertex := by
  refine ⟨g.roots_eq.1, g.nodup_map_vertex_roots, fun root hroot => ?_,
    g.total_size_candidates_roots, fun C hC hcard => ?_⟩
  · have hsplits := g.roots_eq.2 root hroot
    exact ⟨hsplits.candidates_eq, hsplits.excluded_eq, Root.append_perm_of_mem_among hroot⟩
  · obtain ⟨v, hv, hfind⟩ := exists_find?_eq_some (Finset.card_pos.mp (two_pos.trans_le hcard))
      fun w => g.mem_degeneracyOrder_of_mem_clique hC hcard
    obtain ⟨root, hroot, rfl, hcand⟩ := g.exists_root_of_first hC hcard hv hfind
    refine ⟨root, ?_, hfind⟩
    rw [← List.perm_singleton, List.perm_ext_iff_of_nodup
      (g.nodup_map_vertex_roots.of_map.filter _) (List.nodup_singleton root)]
    intro other
    rw [List.mem_filter, decide_eq_true_iff, List.mem_singleton]
    constructor
    · rintro ⟨hother, hmem, hothers⟩
      exact List.inj_on_of_nodup_map g.nodup_map_vertex_roots hother hroot
        (g.vertex_eq_of_first hv hfind hother hmem hothers)
    · rintro rfl
      exact ⟨hroot, hv, hcand⟩

/-- The triangle of the diamond without vertex 3 lies below the root at 2 and below no other. -/
theorem roots_decompose_diamond :
    diamond.roots.map Root.vertex = [3, 2, 1] ∧
      ∃ C : Finset ℕ, C = {0, 1, 2} ∧ diamond.adjacency.IsClique C ∧ 2 ≤ C.card ∧
        ∃ root : Root DenseSet,
          (diamond.roots.filter fun root : Root DenseSet => root.vertex ∈ C ∧
            ∀ w ∈ C.erase root.vertex, w ∈ toList root.frame.candidates) = [root] ∧
          root.vertex = 2 := by
  have hadj : ∀ v ∈ ({0, 1, 2} : Finset ℕ), ∀ w ∈ ({0, 1, 2} : Finset ℕ), v ≠ w →
      diamond.adjacency.Adj v w := by decide +kernel
  have hclique : diamond.adjacency.IsClique ({0, 1, 2} : Finset ℕ) :=
    fun v hv w hw hne => hadj v hv w hw hne
  have horder : diamond.degeneracyOrder = [3, 2, 1, 0] := by decide +kernel
  obtain ⟨hmap, -, -, -, hbelow⟩ := roots_decompose diamond
  obtain ⟨root, hroots, hfind⟩ := hbelow {0, 1, 2} hclique (by decide)
  rw [horder] at hmap hfind
  refine ⟨?_, _, rfl, hclique, by decide, root, hroots, (Option.some.inj hfind).symm⟩
  rw [hmap]
  decide +kernel

end Graph
end MaximalCliques

import MaximalCliques.Proofs.Graph.DegeneracyOrder
import MaximalCliques.Proofs.Search.Exactness
import MaximalCliques.Search.Roots

/-!
# Searching from roots

A root knows all neighbours of its vertex; those that came earlier are excluded. A maximal clique is
therefore found from the first of its members in the order and from no other root. A whole search
is a search without a root, in which every vertex with neighbours is a candidate.
-/

namespace MaximalCliques

open VertexSet LawfulVertexSet

variable {S : Type} [VertexSet S]

namespace Root

/-- The root at a vertex, when the vertices of `earlier` came before it. -/
def ofVertex (g : Graph S) (v : ℕ) (earlier : S) : Root S :=
  ⟨v, difference (g.neighbours v) (intersection (g.neighbours v) earlier),
    intersection (g.neighbours v) earlier⟩

theorem search_eq (g : Graph S) (choice : PivotChoice) (root : Root S) :
    search g choice root = (g.extensions (some choice) root.frame).map (root.vertex :: ·) := by
  unfold search
  rw [g.visit_eq]
  rfl

variable [LawfulVertexSet S] (g : Graph S) (v : ℕ) (earlier : S)

theorem candidateSet_ofVertex :
    (ofVertex g v earlier).frame.candidateSet =
      g.adjacency.neighborSet v ∩ {w | w ∉ toList earlier} := by
  ext w
  simp only [ofVertex, Frame.mem_candidateSet, mem_difference, mem_intersection, Set.mem_inter_iff,
    SimpleGraph.mem_neighborSet, Graph.adj_iff]
  exact and_congr_right fun hw => not_congr (and_iff_right hw)

theorem vertexSet_ofVertex :
    (ofVertex g v earlier).frame.vertexSet = g.adjacency.neighborSet v := by
  ext w
  simp only [ofVertex, Frame.mem_vertexSet, mem_difference, mem_intersection,
    SimpleGraph.mem_neighborSet, Graph.adj_iff]
  grind

theorem separated_ofVertex : (ofVertex g v earlier).frame.Separated := by
  intro w hw
  exact ((mem_difference _ _ _).mp hw).2

theorem size_earlier_lt_iff :
    size (intersection (g.neighbours v) earlier) < size (g.neighbours v) ↔
      toList (ofVertex g v earlier).frame.candidates ≠ [] := by
  have hcand := Set.ext_iff.mp (candidateSet_ofVertex g v earlier)
  rw [size_eq_length, size_eq_length]
  constructor
  · intro hlt hnil
    have hsub : toList (g.neighbours v) ⊆ toList (intersection (g.neighbours v) earlier) := by
      intro w hw
      by_contra hnot
      rw [mem_intersection, not_and] at hnot
      simpa [hnil] using (hcand w).mpr ⟨hw, hnot hw⟩
    have := (nodup_toList _).length_le_of_subset hsub
    omega
  · intro hne
    obtain ⟨w, hw⟩ := List.exists_mem_of_ne_nil _ hne
    obtain ⟨hadj, hlater⟩ := (hcand w).mp hw
    have hfresh : w ∉ toList (intersection (g.neighbours v) earlier) := by
      rw [mem_intersection]
      exact fun h => hlater h.2
    have hsub : w :: toList (intersection (g.neighbours v) earlier) ⊆ toList (g.neighbours v) := by
      intro u hu
      rcases List.mem_cons.mp hu with rfl | hu
      · exact hadj
      · exact ((mem_intersection _ _ _).mp hu).1
    exact (List.nodup_cons.mpr ⟨hfresh, nodup_toList _⟩).length_le_of_subset hsub

theorem among_cons (vs : List ℕ) :
    among g (v :: vs) earlier =
      (if toList (ofVertex g v earlier).frame.candidates = [] then []
        else [ofVertex g v earlier]) ++ among g vs (insert earlier v).set := by
  rw [among]
  by_cases h : toList (ofVertex g v earlier).frame.candidates = []
  · rw [if_pos h, if_neg fun hlt => (size_earlier_lt_iff g v earlier).mp hlt h]
    rfl
  · rw [if_neg h, if_pos ((size_earlier_lt_iff g v earlier).mpr h)]
    rfl

theorem exists_of_mem_among {root : Root S} {vs : List ℕ} {earlier : S}
    (h : root ∈ among g vs earlier) :
    ∃ v earlier, root = ofVertex g v earlier ∧ toList root.frame.candidates ≠ [] := by
  induction vs generalizing earlier with
  | nil => simp [among] at h
  | cons v vs ih =>
    rw [among_cons, List.mem_append] at h
    rcases h with h | h
    · split_ifs at h with hnil
      · simp at h
      · obtain rfl := List.mem_singleton.mp h
        exact ⟨v, earlier, rfl, hnil⟩
    · exact ih h

variable (choice : PivotChoice)

theorem search_eq_nil {root : Root S} (h : toList root.frame.candidates = []) :
    search g choice root = [] := by
  have hsize : size root.frame.candidates = 0 := by rw [size_eq_length, h, List.length_nil]
  rw [search_eq, g.extensions_eq, Frame.steps_eq_nil g _ hsize]
  rfl

variable {v earlier}

/-- A root finds the maximal cliques with its vertex and without earlier ones. -/
theorem enumerates_search (hv : v ∉ toList earlier) :
    Enumerates (search g choice (ofVertex g v earlier)) fun C =>
      v ∈ C ∧ g.IsMaximalClique C ∧ ∀ u ∈ C, u ∉ toList earlier := by
  have hall := g.enumerates_extensions (some choice) _ (separated_ofVertex g v earlier)
  have hfresh : ∀ D, (ofVertex g v earlier).frame.IsExtension g D → v ∉ D := by
    intro D hD hvD
    have hmem := hD.subset v hvD
    rw [candidateSet_ofVertex] at hmem
    exact g.adjacency.loopless.irrefl v hmem.1
  rw [search_eq]
  apply (hall.map_cons v hfresh).congr
  intro C
  apply and_congr_right
  intro hvC
  unfold Frame.IsExtension
  rw [candidateSet_ofVertex, vertexSet_ofVertex, isExtension_inter, g.isMaximalClique_erase hvC]
  apply and_congr_right
  intro _
  constructor
  · intro h u hu
    by_cases huv : u = v
    · exact huv ▸ hv
    · exact h u (Finset.mem_erase.mpr ⟨huv, hu⟩)
  · intro h u hu
    exact h u (Finset.mem_of_mem_erase hu)

theorem enumerates_among {vs : List ℕ} (hnd : vs.Nodup) (hvs : ∀ v ∈ vs, v ∉ toList earlier) :
    Enumerates ((among g vs earlier).flatMap (search g choice)) fun C =>
      (g.IsMaximalClique C ∧ ∀ u ∈ C, u ∉ toList earlier) ∧ ∃ v ∈ C, v ∈ vs := by
  induction vs generalizing earlier with
  | nil => exact Enumerates.nil (by simp)
  | cons v vs ih =>
    obtain ⟨hfresh, hnd⟩ := List.nodup_cons.mp hnd
    have hv := hvs v (by simp)
    have hins : ∀ u, u ∉ toList (insert earlier v).set ↔ u ≠ v ∧ u ∉ toList earlier := by
      intro u
      rw [mem_insert, not_or]
    have hrest := ih hnd fun u hu =>
      (hins u).mpr ⟨fun heq => hfresh (heq ▸ hu), hvs u (by simp [hu])⟩
    have hflat : (among g (v :: vs) earlier).flatMap (search g choice) =
        search g choice (ofVertex g v earlier) ++
          (among g vs (insert earlier v).set).flatMap (search g choice) := by
      rw [among_cons, List.flatMap_append]
      split_ifs with hnil
      · rw [search_eq_nil g choice hnil]
        rfl
      · simp
    rw [hflat]
    apply ((enumerates_search g choice hv).append hrest ?_).congr
    · intro C
      simp only [hins]
      constructor
      · rintro (⟨hvC, hC⟩ | ⟨⟨hC, hout⟩, u, hu, huvs⟩)
        · exact ⟨hC, v, hvC, by simp⟩
        · exact ⟨⟨hC, fun u hu => (hout u hu).2⟩, u, hu, by simp [huvs]⟩
      · rintro ⟨⟨hC, hout⟩, u, hu, huvs⟩
        by_cases hvC : v ∈ C
        · exact Or.inl ⟨hvC, hC, hout⟩
        · rcases List.mem_cons.mp huvs with rfl | huvs
          · exact absurd hu hvC
          · exact Or.inr ⟨⟨hC, fun w hw => ⟨fun heq => hvC (heq ▸ hw), hout w hw⟩⟩, u, hu, huvs⟩
    · rintro C ⟨hvC, -⟩ ⟨⟨-, hout⟩, -⟩
      exact ((hins v).mp (hout v hvC)).1 rfl

end Root

namespace Graph

variable [LawfulVertexSet S] (g : Graph S)

theorem enumerates_searchRoots (choice : PivotChoice) :
    Enumerates (g.searchRoots choice) g.IsMaximalClique := by
  have hnone : ∀ v, v ∉ toList (withCapacity g.order : S) := by
    intro v
    unfold withCapacity
    simp [toList_empty]
  have hall := Root.enumerates_among g choice g.nodup_degeneracyOrder fun v _ => hnone v
  apply hall.congr
  intro C
  constructor
  · rintro ⟨⟨hC, -⟩, -⟩
    exact hC
  · intro hC
    obtain ⟨v, hv⟩ := Finset.card_pos.mp (lt_of_lt_of_le two_pos hC.1)
    obtain ⟨w, -, hadj⟩ := exists_adj_of_mem_clique hC.2.prop hC.1 hv
    refine ⟨⟨hC, fun u _ => hnone u⟩, v, hv, ?_⟩
    exact (g.mem_degeneracyOrder v).mpr (g.adjacency.mem_support.mpr ⟨w, hadj⟩)

def wholeFrame : Frame S := ⟨g.connectedVertices, withCapacity g.order⟩

theorem candidateSet_wholeFrame : g.wholeFrame.candidateSet = g.adjacency.support :=
  Set.ext g.mem_connectedVertices

theorem vertexSet_wholeFrame : g.wholeFrame.vertexSet = g.adjacency.support := by
  ext v
  simp [wholeFrame, withCapacity, toList_empty, mem_connectedVertices]

theorem separated_wholeFrame : g.wholeFrame.Separated := by
  intro v _
  simp [wholeFrame, withCapacity, toList_empty]

theorem searchWhole_eq (choice : Option PivotChoice) :
    g.searchWhole choice = g.extensions choice g.wholeFrame := by
  unfold searchWhole
  dsimp only
  split_ifs with hempty
  · have hsize : VertexSet.size g.connectedVertices = 0 := by simpa [isEmpty] using hempty
    rw [g.extensions_eq, Frame.steps_eq_nil (f := g.wholeFrame) g _ hsize]
    rfl
  · rfl

theorem enumerates_searchWhole (choice : Option PivotChoice) :
    Enumerates (g.searchWhole choice) g.IsMaximalClique := by
  rw [searchWhole_eq]
  apply (g.enumerates_extensions choice _ g.separated_wholeFrame).congr
  intro C
  unfold Frame.IsExtension
  rw [candidateSet_wholeFrame, vertexSet_wholeFrame]
  exact g.isExtension_support_iff C

end Graph
end MaximalCliques

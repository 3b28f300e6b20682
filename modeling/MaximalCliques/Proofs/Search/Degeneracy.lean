import MaximalCliques.Proofs.Graph.Draining
import MaximalCliques.Proofs.Search.Decomposition

/-!
# The degeneracy order has the least width

When a vertex of the degeneracy order is taken, no vertex that waits has fewer neighbours among
those that wait. So the waiting vertices induce a subgraph whose least degree is the number of later
neighbours of that vertex. No order has a width below the degeneracy, and the width of this one is
no more than that; it is also the greatest number of candidates of a root.
-/

namespace MaximalCliques.Graph

open VertexSet LawfulVertexSet DegeneracyQueue

variable {S : Type} [VertexSet S] [LawfulVertexSet S] (g : Graph S)

theorem laterDegree_eq_card (done : List ℕ) (v : ℕ) :
    g.laterDegree done v = ((toList (g.neighbours v)).toFinset.filter (· ∉ done)).card := by
  unfold laterDegree
  rw [← List.toFinset_card_of_nodup ((nodup_toList _).filter _), List.toFinset_filter]
  simp

theorem card_filter_adj_waiting (done : List ℕ) (v : ℕ) :
    ((g.waiting done).toFinset.filter (g.adjacency.Adj v)).card = g.laterDegree done v := by
  rw [laterDegree_eq_card]
  congr 1
  ext w
  simp only [Finset.mem_filter, List.mem_toFinset, g.mem_waiting, g.degree_pos_iff, ← g.adj_iff]
  constructor
  · exact fun ⟨⟨_, hnot⟩, hadj⟩ => ⟨hadj, hnot⟩
  · exact fun ⟨hadj, hnot⟩ => ⟨⟨g.adjacency.mem_support.mpr ⟨v, hadj.symm⟩, hnot⟩, hadj⟩

variable {us ws : List ℕ} {v w : ℕ}

/-- The later neighbours of a vertex are those that have not left when it is taken. -/
theorem card_laterNeighbours_eq (horder : g.degeneracyOrder = us ++ v :: ws) :
    (g.laterNeighbours g.degeneracyOrder v).card = g.laterDegree us v := by
  rw [laterDegree_eq_card]
  congr 1
  ext w
  rw [mem_laterNeighbours, Finset.mem_filter, List.mem_toFinset, ← g.adj_iff]
  refine and_congr_right fun hadj => ?_
  have hw : w ∈ g.degeneracyOrder :=
    (g.mem_degeneracyOrder w).mpr (g.adjacency.mem_support.mpr ⟨v, hadj.symm⟩)
  have hnd := g.nodup_degeneracyOrder
  rw [horder] at hw hnd ⊢
  rw [← Before.not_iff hnd hw (by simp) hadj.ne', Before.left_iff hnd]

theorem laterDegree_le_of_mem_waiting (horder : g.degeneracyOrder = us ++ v :: ws)
    (hw : w ∈ g.waiting us) : g.laterDegree us v ≤ g.laterDegree us w := by
  have hlength : us.length < g.degeneracyOrder.length := by simp [horder]
  have hleast : w ∈ g.waiting (g.degeneracyOrder.take us.length) →
      g.laterDegree (g.degeneracyOrder.take us.length) g.degeneracyOrder[us.length] ≤
        g.laterDegree (g.degeneracyOrder.take us.length) w :=
    (tracks_start g).laterDegree_getElem_le us.length hlength w
  simp only [horder, List.take_left, List.getElem_append_right le_rfl, Nat.sub_self,
    List.getElem_cons_zero] at hleast
  exact hleast hw

theorem width_degeneracyOrder_le : g.width g.degeneracyOrder ≤ g.degeneracy := by
  refine Finset.sup_le fun v hv => ?_
  have hv := List.mem_toFinset.mp hv
  obtain ⟨us, ws, horder⟩ := List.append_of_mem hv
  have hnd := g.nodup_degeneracyOrder
  rw [horder, List.nodup_middle, List.nodup_cons, List.mem_append, not_or] at hnd
  have hwait : v ∈ g.waiting us :=
    (g.mem_waiting us v).mpr ⟨(g.degree_pos_iff v).mpr ((g.mem_degeneracyOrder v).mp hv), hnd.1.1⟩
  rw [g.card_laterNeighbours_eq horder]
  refine g.le_degeneracy ⟨v, List.mem_toFinset.mpr hwait⟩ (fun w hw => ?_) fun w hw => ?_
  · exact List.mem_range.mp (List.mem_of_mem_filter (List.mem_toFinset.mp hw))
  · rw [card_filter_adj_waiting]
    exact g.laterDegree_le_of_mem_waiting horder (List.mem_toFinset.mp hw)

theorem degeneracy_eq_width : g.degeneracy = g.width g.degeneracyOrder :=
  le_antisymm (g.degeneracy_le_width fun v => (g.mem_degeneracyOrder v).mpr)
    g.width_degeneracyOrder_le

theorem degeneracy_eq_zero_iff :
    g.degeneracy = 0 ↔ ∀ v ∈ g.degeneracyOrder, g.laterNeighbours g.degeneracyOrder v = ∅ := by
  rw [degeneracy_eq_width, width, ← Nat.bot_eq_zero, Finset.sup_eq_bot_iff]
  simp only [List.mem_toFinset, Nat.bot_eq_zero, Finset.card_eq_zero]

theorem roots_eq_nil_iff : g.roots = [] ↔ g.degeneracy = 0 := by
  rw [degeneracy_eq_zero_iff, ← List.map_eq_nil_iff (f := Root.vertex), g.roots_eq.1,
    List.filter_eq_nil_iff]
  simp only [decide_eq_true_eq, Finset.not_nonempty_iff_eq_empty]

theorem edges_eq_nil_iff : g.edges = [] ↔ g.degeneracy = 0 := by
  have hsum := g.sum_card_laterNeighbours g.nodup_degeneracyOrder fun v =>
    (g.mem_degeneracyOrder v).mpr
  rw [degeneracy_eq_zero_iff, ← List.length_eq_zero_iff, ← hsum, Finset.sum_eq_zero_iff]
  simp only [List.mem_toFinset, Finset.card_eq_zero]

theorem max?_size_candidates_roots :
    (g.roots.map fun root => VertexSet.size root.frame.candidates).max?.getD 0 = g.degeneracy := by
  rw [map_size_candidates_roots, max?_getD_map, degeneracy_eq_width, List.toFinset_filter]
  apply le_antisymm
  · exact Finset.sup_mono (Finset.filter_subset _ _)
  · refine Finset.sup_le fun v hv => ?_
    by_cases hne : (g.laterNeighbours g.degeneracyOrder v).Nonempty
    · exact Finset.le_sup (f := fun v => (g.laterNeighbours g.degeneracyOrder v).card)
        (Finset.mem_filter.mpr ⟨hv, decide_eq_true hne⟩)
    · simp [Finset.not_nonempty_iff_eq_empty.mp hne]

/-- The greatest number of later neighbours in the degeneracy order is the degeneracy. An order with
all vertices of positive degree cannot do with less. The degeneracy is also the greatest number of
candidates of a root; it is zero when there are no roots, and that is when there are no edges. -/
theorem width_degeneracyOrder :
    g.width g.degeneracyOrder = g.degeneracy ∧
    (∀ order : List ℕ, (∀ v, 0 < g.degree v → v ∈ order) →
      g.width g.degeneracyOrder ≤ g.width order) ∧
    (g.roots.map fun root => VertexSet.size root.frame.candidates).max?.getD 0 = g.degeneracy ∧
    (g.roots = [] ↔ g.degeneracy = 0) ∧
    (g.edges = [] ↔ g.degeneracy = 0) := by
  refine ⟨g.degeneracy_eq_width.symm, fun order hall => ?_, g.max?_size_candidates_roots,
    g.roots_eq_nil_iff, g.edges_eq_nil_iff⟩
  rw [← degeneracy_eq_width]
  exact g.degeneracy_le_width fun v hv => hall v ((g.degree_pos_iff v).mpr hv)

/-- The degeneracy of the diamond is two, which the ascending order of its vertices reaches, too. -/
theorem width_degeneracyOrder_diamond :
    (∀ v, 0 < diamond.degree v → v ∈ [0, 1, 2, 3]) ∧
      diamond.width diamond.degeneracyOrder ≤ diamond.width [0, 1, 2, 3] ∧
      diamond.width [0, 1, 2, 3] = 2 ∧ diamond.degeneracy = 2 := by
  have hall : ∀ v, 0 < diamond.degree v → v ∈ [0, 1, 2, 3] := by
    intro v hv
    obtain ⟨w, hadj⟩ := diamond.adjacency.mem_support.mp ((diamond.degree_pos_iff v).mp hv)
    have hbelow : ∀ v < diamond.order, 0 < diamond.degree v → v ∈ [0, 1, 2, 3] := by
      decide +kernel
    exact hbelow v (lt_order_of_adj hadj) hv
  obtain ⟨hwidth, hleast, -⟩ := width_degeneracyOrder diamond
  refine ⟨hall, hleast _ hall, by decide +kernel, ?_⟩
  rw [← hwidth]
  decide +kernel

end MaximalCliques.Graph

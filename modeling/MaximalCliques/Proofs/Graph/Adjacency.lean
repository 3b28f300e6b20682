import Mathlib.Combinatorics.SimpleGraph.Clique
import MaximalCliques.Graph
import MaximalCliques.VertexSet.Dense

/-!
# The mathematical graph of a table

A table that keeps the rules is a simple graph on the natural numbers in which every number outside
the table is isolated. Cliques of two or more vertices therefore lie inside the table, and the ones
that a search is to find are those that no vertex extends.
-/

namespace MaximalCliques.Graph

open VertexSet LawfulVertexSet

variable {S : Type} [VertexSet S]

def adjacency (g : Graph S) : SimpleGraph ℕ where
  Adj v w := w ∈ toList (g.neighbours v)
  symm := ⟨fun v w h => g.valid.symmetric v w h⟩
  loopless := ⟨fun v h => g.valid.loopless v h⟩

theorem adj_iff (g : Graph S) (v w : ℕ) :
    g.adjacency.Adj v w ↔ w ∈ toList (g.neighbours v) := Iff.rfl

theorem lt_order_of_adj {g : Graph S} {v w : ℕ} (h : g.adjacency.Adj v w) : v < g.order :=
  g.valid.inRange w v h.symm

/-- A maximal clique with at least one edge. -/
def IsMaximalClique (g : Graph S) (C : Finset ℕ) : Prop :=
  2 ≤ C.card ∧ Maximal (fun D : Finset ℕ => g.adjacency.IsClique D) C

theorem exists_adj_of_mem_clique {g : Graph S} {C : Finset ℕ} (hC : g.adjacency.IsClique C)
    (hcard : 2 ≤ C.card) {v : ℕ} (hv : v ∈ C) : ∃ w ∈ C, g.adjacency.Adj v w := by
  obtain ⟨w, hw, hne⟩ := Finset.exists_mem_ne (by omega : 1 < C.card) v
  exact ⟨w, hw, hC hv hw hne.symm⟩

theorem bddAbove_clique_card (g : Graph S) : BddAbove {n | ∃ C, g.adjacency.IsNClique n C} := by
  refine ⟨max 1 g.order, ?_⟩
  rintro n ⟨C, hC, rfl⟩
  by_cases hcard : 2 ≤ C.card
  · have hsub : C ⊆ Finset.range g.order := by
      intro v hv
      obtain ⟨w, -, hadj⟩ := exists_adj_of_mem_clique hC hcard hv
      exact Finset.mem_range.mpr (lt_order_of_adj hadj)
    have := Finset.card_le_card hsub
    rw [Finset.card_range] at this
    omega
  · omega

theorem card_le_cliqueNum {g : Graph S} {C : Finset ℕ} (hC : g.adjacency.IsClique C) :
    C.card ≤ g.adjacency.cliqueNum :=
  le_csSup g.bddAbove_clique_card ⟨C, hC, rfl⟩

variable [LawfulVertexSet S]

theorem degree_pos_iff (g : Graph S) (v : ℕ) : 0 < g.degree v ↔ v ∈ g.adjacency.support := by
  unfold degree
  rw [size_eq_length, List.length_pos_iff_exists_mem, SimpleGraph.mem_support]
  rfl

theorem mem_connectedVertices (g : Graph S) (v : ℕ) :
    v ∈ toList g.connectedVertices ↔ v ∈ g.adjacency.support := by
  unfold connectedVertices
  simp only [mem_ofList, List.mem_filter, decide_eq_true_eq, g.degree_pos_iff, vertices,
    List.mem_range, and_iff_right_iff_imp]
  intro h
  obtain ⟨w, hadj⟩ := g.adjacency.mem_support.mp h
  exact lt_order_of_adj hadj

/-- Two triangles with a common edge and a vertex apart. -/
def diamond : Graph DenseSet where
  rows := #[ofList [1, 2], ofList [0, 2, 3], ofList [0, 1, 3], ofList [1, 2], ofList []]
  valid := (Table.fault?_eq_none_iff _).mp (by decide +kernel)

end MaximalCliques.Graph

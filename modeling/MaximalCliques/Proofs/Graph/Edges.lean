import Mathlib.Data.Finset.Lattice.Fold
import Mathlib.Data.List.Nodup
import Mathlib.Data.List.Perm.Basic
import Mathlib.Data.List.ProdSigma
import MaximalCliques.Proofs.Graph.Adjacency

/-!
# The edges of a graph

An edge stands twice among the entries of the rows, once in each direction. The listed edges are the
entries whose vertex is below that of their row, so the rows hold twice as many entries as there are
edges.
-/

namespace MaximalCliques

theorem total_eq_sum (ns : List ℕ) : total ns = ns.sum := by
  induction ns with
  | nil => rfl
  | cons n ns ih => rw [total, ih, List.sum_cons]

theorem max?_getD_map {α : Type} [DecidableEq α] (f : α → ℕ) (xs : List α) :
    (xs.map f).max?.getD 0 = xs.toFinset.sup f := by
  induction xs with
  | nil => rfl
  | cons x xs ih =>
    rw [List.map_cons, List.max?_cons, List.toFinset_cons, Finset.sup_insert, ← ih]
    cases (xs.map f).max? <;> simp

theorem nodup_flatMap_map_mk {vs : List ℕ} {row : ℕ → List ℕ} (hvs : vs.Nodup)
    (hrow : ∀ v, (row v).Nodup) : (vs.flatMap fun v => (row v).map (v, ·)).Nodup := by
  apply List.nodup_flatMap.mpr
  constructor
  · intro v _
    exact (hrow v).map fun _ _ h => (Prod.mk.inj h).2
  · refine hvs.imp fun {v v'} hne => ?_
    simp only [Function.onFun, List.disjoint_left, List.mem_map]
    rintro _ ⟨w, -, rfl⟩ ⟨w', -, heq⟩
    exact hne (Prod.mk.inj heq).1.symm

namespace Graph

open VertexSet LawfulVertexSet

variable {S : Type} [VertexSet S] (g : Graph S)

def entries : List Edge := g.vertices.flatMap fun v => (toList (g.neighbours v)).map (v, ·)

theorem mem_entries (v w : ℕ) : (v, w) ∈ g.entries ↔ g.adjacency.Adj v w := by
  rw [adj_iff, entries, List.mem_flatMap]
  constructor
  · rintro ⟨u, -, hu⟩
    obtain ⟨x, hx, heq⟩ := List.mem_map.mp hu
    obtain ⟨rfl, rfl⟩ := Prod.mk.inj heq
    exact hx
  · intro h
    exact ⟨v, List.mem_range.mpr (lt_order_of_adj h), List.mem_map_of_mem h⟩

theorem edges_eq_filter : g.edges = g.entries.filter fun e => e.2 < e.1 := by
  rw [edges, entries, List.filter_flatMap]
  simp only [List.filter_map, Function.comp_def]

theorem mem_edges (v w : ℕ) : (v, w) ∈ g.edges ↔ w < v ∧ g.adjacency.Adj v w := by
  rw [edges_eq_filter, List.mem_filter, mem_entries, decide_eq_true_iff, and_comm]

theorem lt_order_of_mem_edges {e : Edge} (h : e ∈ g.edges) : e.2 < e.1 ∧ e.1 < g.order := by
  obtain ⟨hlt, hadj⟩ := (g.mem_edges e.1 e.2).mp h
  exact ⟨hlt, lt_order_of_adj hadj⟩

theorem degrees_eq_map : g.degrees = g.vertices.map g.degree := by
  apply List.ext_getElem
  · simp [Table.degrees, vertices, Table.order]
  · intro v hv _
    have hlt : v < g.rows.size := by simpa [Table.degrees] using hv
    simp [Table.degrees, vertices, degree, neighbours, Table.row, Array.getD_eq_getD_getElem?,
      Array.getElem?_eq_getElem hlt]

variable [LawfulVertexSet S]

theorem nodup_entries : g.entries.Nodup :=
  nodup_flatMap_map_mk List.nodup_range fun _ => nodup_toList _

theorem nodup_edges : g.edges.Nodup := by
  rw [edges_eq_filter]
  exact g.nodup_entries.filter _

theorem length_entries : g.entries.length = g.degreeSum := by
  rw [entries, List.length_flatMap, Table.degreeSum, degrees_eq_map, total_eq_sum]
  simp only [List.length_map]
  congr 1
  exact List.map_congr_left fun v _ => (size_eq_length (g.neighbours v)).symm

theorem filter_not_perm :
    (g.entries.filter fun e => !decide (e.2 < e.1)).Perm (g.edges.map Prod.swap) := by
  refine (List.perm_ext_iff_of_nodup (g.nodup_entries.filter _) ?_).mpr fun ⟨v, w⟩ => ?_
  · exact g.nodup_edges.map Prod.swap_injective
  · rw [List.mem_filter, mem_entries, List.mem_map_swap, mem_edges, g.adjacency.adj_comm w v]
    simp only [Bool.not_eq_true', decide_eq_false_iff_not, not_lt]
    constructor
    · rintro ⟨hadj, hle⟩
      exact ⟨lt_of_le_of_ne hle hadj.ne, hadj⟩
    · rintro ⟨hlt, hadj⟩
      exact ⟨hadj, hlt.le⟩

theorem degreeSum_eq : g.degreeSum = 2 * g.edges.length := by
  have hsplit := List.length_eq_length_filter_add (l := g.entries) fun e => e.2 < e.1
  rw [← edges_eq_filter, g.filter_not_perm.length_eq, List.length_map, length_entries] at hsplit
  omega

theorem length_edges_le {bound : ℕ} (h : ∀ e ∈ g.edges, e.1 < bound) :
    g.edges.length ≤ bound * (bound - 1) := by
  have hsub : g.edges ⊆ List.range bound ×ˢ List.range (bound - 1) := by
    intro e he
    have hlt := (g.lt_order_of_mem_edges he).1
    have hbound := h e he
    rw [← Prod.mk.eta (p := e), List.mem_product, List.mem_range, List.mem_range]
    omega
  have hlength := g.nodup_edges.length_le_of_subset hsub
  rwa [List.length_product, List.length_range, List.length_range] at hlength

end Graph
end MaximalCliques

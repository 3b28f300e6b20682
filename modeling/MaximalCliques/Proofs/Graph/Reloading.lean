import MaximalCliques.Proofs.BinaryRecord
import MaximalCliques.Proofs.EdgeList.Writing
import MaximalCliques.Proofs.Graph.Rebuilding

/-!
# Written graphs are loaded again

A graph can be written as an edge list or as a binary record. Both keep its order and its edges, the
edge list with the lower vertex of each edge in front and the record with the higher one, so both
are loaded as the graph that is rebuilt from the edges.
-/

namespace MaximalCliques

open VertexSet LawfulVertexSet

namespace EdgeList

variable {S : Type} [VertexSet S] (g : Graph S)

theorem order_writtenLines : order (writtenLines g) = g.order := by
  have hmax : ((writtenLines g).map Line.order).max? = some g.order := by
    rw [List.max?_eq_some_iff]
    refine ⟨by simp [writtenLines, Line.order], ?_⟩
    simp only [writtenLines, List.cons_append, List.map_cons, List.map_append, List.map_map,
      List.mem_cons, List.mem_append, List.mem_map]
    rintro n (rfl | ⟨e, he, rfl⟩ | hn)
    · exact le_rfl
    · obtain ⟨hlt, horder⟩ := g.lt_order_of_mem_edges he
      exact Nat.max_le.mpr ⟨Nat.succ_le_of_lt (hlt.trans horder), Nat.succ_le_of_lt horder⟩
    · simp_all [Line.order]
  rw [order, hmax, Option.getD_some]

theorem edges_writtenLines : edges (writtenLines g) = g.edges.map Prod.swap := by
  simp only [edges, writtenLines, List.cons_append, List.filterMap_cons, List.filterMap_append,
    List.filterMap_map, List.filterMap_nil, List.append_nil, Line.edge?]
  exact congrFun List.filterMap_eq_map g.edges

end EdgeList

namespace Graph

/-- A graph whose order fits into eight bytes, and each vertex with an edge into four. -/
structure Storable {S : Type} [VertexSet S] (g : Graph S) : Prop where
  order_lt : g.order < countBound
  vertex_lt : ∀ v w, g.adjacency.Adj v w → v < vertexBound

section Loading

variable {S T : Type} [VertexSet S] [VertexSet T] [LawfulVertexSet T] {g : Graph S}

theorem storable_of_order_lt (h : g.order < vertexBound) : g.Storable :=
  ⟨h.trans (by decide), fun _ _ hadj => (lt_order_of_adj hadj).trans h⟩

theorem Storable.edges_lt (h : g.Storable) :
    ∀ e ∈ g.edges, e.1 < vertexBound ∧ e.2 < vertexBound := by
  intro e he
  obtain ⟨hlt, hadj⟩ := (g.mem_edges e.1 e.2).mp he
  have hfst := h.vertex_lt _ _ hadj
  exact ⟨hfst, hlt.trans hfst⟩

theorem ofEdgeList_toEdgeList (horder : g.order < vertexBound) (hfits : Table.Fits T g.order) :
    (ofEdgeList (EdgeList.encode g.toEdgeList) : Except Error (Graph T)) =
      ofEdges g.order (g.edges.map Prod.swap) := by
  have hcount : g.order < countBound := horder.trans (by decide)
  have hread : EdgeList.read (EdgeList.encode g.toEdgeList) = .ok (EdgeList.writtenLines g) :=
    EdgeList.read_encode_toEdgeList hcount (storable_of_order_lt horder).edges_lt
  rw [← EdgeList.order_writtenLines g] at hfits
  rw [ofEdgeList, hread, ← EdgeList.order_writtenLines g, ← EdgeList.edges_writtenLines g]
  exact if_pos hfits

variable [LawfulVertexSet S]

theorem Storable.length_edges_lt (h : g.Storable) : g.edges.length < countBound :=
  calc g.edges.length ≤ vertexBound * (vertexBound - 1) :=
        g.length_edges_le fun e he => (h.edges_lt e he).1
    _ < countBound := by decide

theorem Storable.ofRecord_append (h : g.Storable) (rest : List UInt8) :
    (ofRecord (g.toRecord ++ rest) : Except Error (Graph T)) = ofEdges g.order g.edges := by
  rw [ofRecord, toRecord,
    BinaryRecord.decode_encode_append h.order_lt h.length_edges_lt h.edges_lt]
  rfl

variable (g)

theorem exists_reloaded (horder : g.order < vertexBound) (hfits : Table.Fits T g.order) :
    ∃ h : Graph T, ofEdgeList (EdgeList.encode g.toEdgeList) = .ok h ∧
      ofRecord g.toRecord = .ok h ∧ h.order = g.order ∧
      ∀ v, h.neighbours v = ofList (partners v g.edges) := by
  obtain ⟨h, hok, hswap, hrebuilt⟩ := g.exists_rebuilt (T := T)
  refine ⟨h, ?_, ?_, hrebuilt⟩
  · rw [ofEdgeList_toEdgeList horder hfits, hswap]
  · rw [← List.append_nil g.toRecord, (storable_of_order_lt horder).ofRecord_append, hok]

end Loading

/-- In both representations, the edge list and the binary record of a graph are loaded as one and
the same graph, of the same order and with the same neighbours of every vertex. In the
representation of the graph itself, what is loaded lists its edges in the same order, so it is
written as the same files. -/
theorem exists_loaded_of_written (r : Representation) (g : Graph r.Carrier)
    (horder : g.order < vertexBound) :
    (∀ t : Representation, ∃ h : Graph t.Carrier,
      ofEdgeList (EdgeList.encode g.toEdgeList) = .ok h ∧ ofRecord g.toRecord = .ok h ∧
        h.order = g.order ∧
        ∀ v w, w ∈ toList (h.neighbours v) ↔ w ∈ toList (g.neighbours v)) ∧
    ∃ h : Graph r.Carrier,
      ofEdgeList (EdgeList.encode g.toEdgeList) = .ok h ∧ ofRecord g.toRecord = .ok h ∧
        h.edges = g.edges ∧
        EdgeList.encode h.toEdgeList = EdgeList.encode g.toEdgeList ∧
        h.toRecord = g.toRecord := by
  constructor
  · intro t
    obtain ⟨h, hlist, hrecord, hsize, hrows⟩ :=
      g.exists_reloaded horder (t.fits_of_lt_vertexBound horder)
    refine ⟨h, hlist, hrecord, hsize, fun v w => ?_⟩
    rw [hrows, mem_ofList, mem_partners_edges]
  · obtain ⟨h, hlist, hrecord, hsize, hrows⟩ :=
      g.exists_reloaded horder (r.fits_of_lt_vertexBound horder)
    have hedges : h.edges = g.edges := edges_rebuilt hsize hrows
    refine ⟨h, hlist, hrecord, hedges, ?_, ?_⟩
    · rw [toEdgeList, toEdgeList, hsize, hedges]
    · rw [toRecord, toRecord, hsize, hedges]

/-- Two triangles with a common edge and a vertex apart, with rows in no order. -/
def unorderedDiamond : Graph IndexedSet where
  rows := #[ofList [2, 1], ofList [3, 0, 2], ofList [1, 3, 0], ofList [2, 1], ofList []]
  valid := (Table.fault?_eq_none_iff _).mp (by decide +kernel)

theorem exists_loaded_of_written_unorderedDiamond :
    unorderedDiamond.order < vertexBound ∧
      unorderedDiamond.edges = [(1, 0), (2, 1), (2, 0), (3, 2), (3, 1)] ∧
      (∃ h : Graph DenseSet,
        ofEdgeList (EdgeList.encode unorderedDiamond.toEdgeList) = .ok h ∧
          h.order = unorderedDiamond.order) ∧
      ∃ h : Graph IndexedSet,
        ofEdgeList (EdgeList.encode unorderedDiamond.toEdgeList) = .ok h ∧
          h.edges = [(1, 0), (2, 1), (2, 0), (3, 2), (3, 1)] := by
  have hedges : unorderedDiamond.edges = [(1, 0), (2, 1), (2, 0), (3, 2), (3, 1)] := by
    decide +kernel
  obtain ⟨hany, hsame⟩ := exists_loaded_of_written .indexed unorderedDiamond (by decide)
  obtain ⟨h, hlist, -, horder, -⟩ := hany .dense
  obtain ⟨h', hlist', -, hedges', -⟩ := hsame
  exact ⟨by decide, hedges, ⟨h, hlist, horder⟩, h', hlist', hedges'.trans hedges⟩

end Graph
end MaximalCliques

import MaximalCliques.CommandLine.Representation
import MaximalCliques.Proofs.Graph.Building

/-!
# Rebuilding a graph from its edges

The edges of a graph, in either direction, give back its rows up to their order: a row first
receives its lower neighbours, in the order of the old row, and then the higher ones. Only the lower
neighbours decide in which order edges are listed, so the rebuilt graph lists its edges as the old
one did.
-/

namespace MaximalCliques

open VertexSet LawfulVertexSet

theorem partners_map_swap {edges : List Edge} (h : ∀ e ∈ edges, e.1 ≠ e.2) (v : ℕ) :
    partners v (edges.map Prod.swap) = partners v edges := by
  rw [partners, partners, List.filterMap_map]
  refine List.filterMap_congr fun e he => ?_
  have hne := h e he
  simp only [Function.comp_apply, Prod.fst_swap, Prod.snd_swap]
  split_ifs <;> grind

theorem partners_append (v : ℕ) (edges rest : List Edge) :
    partners v (edges ++ rest) = partners v edges ++ partners v rest := List.filterMap_append

namespace Graph

section Edges

variable {S : Type} [VertexSet S] (g : Graph S)

def edgesFrom (vs : List ℕ) : List Edge :=
  vs.flatMap fun v => ((toList (g.neighbours v)).filter (· < v)).map (v, ·)

theorem mem_edgesFrom {vs : List ℕ} {e : Edge} (h : e ∈ g.edgesFrom vs) : e.1 ∈ vs ∧ e.2 < e.1 := by
  obtain ⟨v, hv, he⟩ := List.mem_flatMap.mp h
  obtain ⟨w, hw, rfl⟩ := List.mem_map.mp he
  exact ⟨hv, by simpa using List.of_mem_filter hw⟩

theorem partners_edgesFrom_singleton (v : ℕ) :
    partners v (g.edgesFrom [v]) = (toList (g.neighbours v)).filter (· < v) := by
  simp [partners, edgesFrom, List.filterMap_map]

/-- The partners of a vertex are its lower neighbours in the order of its row and then higher
ones. -/
theorem exists_partners_edges (v : ℕ) (hv : v < g.order) :
    ∃ highs, partners v g.edges = (toList (g.neighbours v)).filter (· < v) ++ highs ∧
      ∀ w ∈ highs, v < w := by
  have hvertices : g.vertices = List.range v ++ [v] ++ List.range' (v + 1) (g.order - (v + 1)) := by
    rw [vertices, ← List.range_succ, List.range_eq_range', List.range_eq_range',
      ← Nat.zero_add (v + 1), List.range'_append_1]
    congr 1
    omega
  have hedges : g.edges = g.edgesFrom (List.range v) ++ g.edgesFrom [v] ++
      g.edgesFrom (List.range' (v + 1) (g.order - (v + 1))) := by
    simp only [edges, edgesFrom, hvertices, List.flatMap_append]
  have hnone : partners v (g.edgesFrom (List.range v)) = [] := by
    rw [List.eq_nil_iff_forall_not_mem]
    intro w hw
    rcases (mem_partners _ v w).mp hw with he | he
    · exact absurd (List.mem_range.mp (g.mem_edgesFrom he).1) (lt_irrefl v)
    · obtain ⟨hw, hlt⟩ := g.mem_edgesFrom he
      exact absurd (List.mem_range.mp hw) (not_lt.mpr hlt.le)
  refine ⟨partners v (g.edgesFrom (List.range' (v + 1) (g.order - (v + 1)))), ?_, fun w hw => ?_⟩
  · rw [hedges, partners_append, partners_append, hnone, partners_edgesFrom_singleton,
      List.nil_append]
  · rcases (mem_partners _ v w).mp hw with he | he
    · have hmem := (g.mem_edgesFrom he).1
      simp at hmem
    · exact (g.mem_edgesFrom he).2

theorem ext_neighbours {g h : Graph S} (horder : g.order = h.order)
    (hrow : ∀ v, g.neighbours v = h.neighbours v) : g = h := by
  obtain ⟨t, ht⟩ := g
  obtain ⟨u, hu⟩ := h
  congr 1
  exact Table.ext_row horder fun v _ => hrow v

end Edges

end Graph

namespace IndexedSet

theorem toList_foldl_insert (vs : List ℕ) (s : IndexedSet) :
    toList (vs.foldl (fun s v => (VertexSet.insert s v).set) s) = vs.foldl push (toList s) := by
  induction vs generalizing s with
  | nil => rfl
  | cons v vs ih =>
    rw [List.foldl_cons, ih]
    rfl

theorem foldl_push_of_nodup {vs ws : List ℕ} (h : (vs ++ ws).Nodup) :
    ws.foldl push vs = vs ++ ws := by
  induction ws generalizing vs with
  | nil => simp
  | cons w ws ih =>
    have hfresh : w ∉ vs := fun hmem =>
      (List.nodup_append.mp h).2.2 w hmem w List.mem_cons_self rfl
    have hnodup : (vs ++ [w] ++ ws).Nodup := by simpa using h
    rw [List.foldl_cons, push, if_neg hfresh, ih hnodup, List.append_assoc, List.singleton_append]

theorem filter_lt_foldl_push {v : ℕ} {highs : List ℕ} (h : ∀ w ∈ highs, v < w) (vs : List ℕ) :
    (highs.foldl push vs).filter (· < v) = vs.filter (· < v) := by
  induction highs generalizing vs with
  | nil => rfl
  | cons w highs ih =>
    obtain ⟨hw, hhighs⟩ := List.forall_mem_cons.mp h
    rw [List.foldl_cons, ih hhighs, push]
    split_ifs
    · rfl
    · simp [List.filter_append, hw.le]

theorem filter_lt_toList_ofList (s : IndexedSet) {v : ℕ} {highs : List ℕ} (h : ∀ w ∈ highs, v < w) :
    (toList (ofList ((toList s).filter (· < v) ++ highs) : IndexedSet)).filter (· < v) =
      (toList s).filter (· < v) := by
  have hlows : ([] ++ (toList s).filter (· < v)).Nodup := (nodup_toList s).filter _
  rw [ofList, toList_foldl_insert, toList_empty, List.foldl_append, filter_lt_foldl_push h,
    foldl_push_of_nodup hlows, List.nil_append, List.filter_filter]
  simp

end IndexedSet

namespace DenseSet

theorem pairwise_toList (s : DenseSet) : (toList s).Pairwise (· < ·) := s.bitmap.pairwise_toList

theorem filter_lt_toList_ofList (s : DenseSet) {v : ℕ} {highs : List ℕ} (h : ∀ w ∈ highs, v < w) :
    (toList (ofList ((toList s).filter (· < v) ++ highs) : DenseSet)).filter (· < v) =
      (toList s).filter (· < v) := by
  have hasc : ∀ t : DenseSet, ((toList t).filter (· < v)).Pairwise (· < ·) := fun t =>
    t.pairwise_toList.filter _
  -- both lists ascend, so it is enough that they have the same members
  refine List.Perm.eq_of_pairwise' (hasc _) (hasc _) ?_
  refine (List.perm_ext_iff_of_nodup ((nodup_toList _).filter _) ((nodup_toList _).filter _)).mpr ?_
  intro w
  simp only [List.mem_filter, mem_ofList, List.mem_append, decide_eq_true_iff]
  constructor
  · rintro ⟨hw | hw, hlt⟩
    · exact hw
    · exact absurd (h w hw) (not_lt.mpr hlt.le)
  · exact fun hw => ⟨Or.inl hw, hw.2⟩

end DenseSet

/-- A set that receives the lower members of another one and then higher vertices lists the lower
members as that one does. -/
theorem Representation.filter_lt_toList_ofList (r : Representation) (s : r.Carrier) {v : ℕ}
    {highs : List ℕ} (h : ∀ w ∈ highs, v < w) :
    (toList (ofList ((toList s).filter (· < v) ++ highs) : r.Carrier)).filter (· < v) =
      (toList s).filter (· < v) := by
  cases r with
  | dense => exact DenseSet.filter_lt_toList_ofList s h
  | indexed => exact IndexedSet.filter_lt_toList_ofList s h

namespace Graph

section Rebuilt

variable {S T : Type} [VertexSet S] [VertexSet T] [LawfulVertexSet T] (g : Graph S)

theorem mem_partners_edges (v w : ℕ) :
    w ∈ partners v g.edges ↔ w ∈ toList (g.neighbours v) := by
  rw [mem_partners, mem_edges, mem_edges, g.adjacency.adj_comm w v, ← or_and_right, ← adj_iff]
  exact and_iff_right_of_imp fun h => h.ne.symm.lt_or_gt

theorem findSome?_edgeFault?_edges : g.edges.findSome? (edgeFault? g.order) = none := by
  rw [List.findSome?_eq_none_iff]
  intro e he
  obtain ⟨hlt, horder⟩ := g.lt_order_of_mem_edges he
  exact (edgeFault?_eq_none_iff _ _).mpr ⟨horder, hlt.trans horder, hlt.ne'⟩

theorem exists_rebuilt :
    ∃ h : Graph T, ofEdges g.order g.edges = .ok h ∧
      ofEdges g.order (g.edges.map Prod.swap) = .ok h ∧ h.order = g.order ∧
      ∀ v, h.neighbours v = ofList (partners v g.edges) := by
  obtain ⟨h, hok, horder, hrows⟩ := exists_ofEdges (S := T) g.findSome?_edgeFault?_edges
  have hswap : (g.edges.map Prod.swap).findSome? (edgeFault? g.order) = none := by
    rw [List.findSome?_eq_none_iff, List.forall_mem_map]
    intro e he
    obtain ⟨hlt, he'⟩ := g.lt_order_of_mem_edges he
    exact (edgeFault?_eq_none_iff _ _).mpr ⟨hlt.trans he', he', hlt.ne⟩
  obtain ⟨h', hok', horder', hrows'⟩ := exists_ofEdges (S := T) hswap
  have heq : h' = h := by
    refine ext_neighbours (horder'.trans horder.symm) fun v => ?_
    rw [hrows, hrows', partners_map_swap fun e he => (g.lt_order_of_mem_edges he).1.ne']
  exact ⟨h, hok, heq ▸ hok', horder, hrows⟩

end Rebuilt

/-- A graph that was rebuilt in its own representation lists its edges in the old order. -/
theorem edges_rebuilt {r : Representation} {g h : Graph r.Carrier} (horder : h.order = g.order)
    (hrows : ∀ v, h.neighbours v = ofList (partners v g.edges)) : h.edges = g.edges := by
  unfold edges vertices
  rw [horder]
  refine List.flatMap_congr fun v hv => ?_
  obtain ⟨highs, hpartners, hhighs⟩ := g.exists_partners_edges v (List.mem_range.mp hv)
  rw [hrows, hpartners, r.filter_lt_toList_ofList _ hhighs]

end Graph
end MaximalCliques

import Mathlib.Logic.Relation
import MaximalCliques.Proofs.Graph.Building

/-!
# Which edges make a graph

A list of edges makes a graph if every edge joins two different vertices below the order; otherwise
the first edge that does not is the error. A graph that is made has exactly the listed edges, so the
order in which they are listed, their direction and repeats leave no trace in it but in the order of
its rows. The table is at no point in conflict with the rules of a graph, so validating it at the
end, row by row in whatever order, never fails.
-/

namespace MaximalCliques

open VertexSet LawfulVertexSet

/-- What is wrong with an edge in a graph of the given order, by the first rule that it breaks. -/
inductive EdgeFault (order : ℕ) (e : Edge) : Error → Prop
  | firstOutOfRange (h : order ≤ e.1) : EdgeFault order e (.outOfRange e.1 order)
  | secondOutOfRange (hfst : e.1 < order) (h : order ≤ e.2) :
    EdgeFault order e (.outOfRange e.2 order)
  | selfLoop (hfst : e.1 < order) (h : e.1 = e.2) : EdgeFault order e (.selfLoop e.1)

def Listed (edges : List Edge) (v w : ℕ) : Prop := (v, w) ∈ edges ∨ (w, v) ∈ edges

/-- One change to a list of edges that keeps which vertices it joins. -/
inductive Rearranged : List Edge → List Edge → Prop
  | reorder {edges edges' : List Edge} (h : edges.Perm edges') : Rearranged edges edges'
  | duplicate {before after : List Edge} {e : Edge} (h : e ∈ before ++ after) :
    Rearranged (before ++ after) (before ++ e :: after)
  | flip {before after : List Edge} (e : Edge) :
    Rearranged (before ++ e :: after) (before ++ e.swap :: after)

section Edges

variable {order : ℕ} {edges edges' : List Edge} {e : Edge} {fault : Error}

theorem edgeFault?_eq_some_iff : edgeFault? order e = some fault ↔ EdgeFault order e fault := by
  constructor
  · intro h
    unfold edgeFault? at h
    split_ifs at h with hfst hsnd heq
    · cases h
      exact .firstOutOfRange hfst
    · cases h
      exact .secondOutOfRange (not_le.mp hfst) hsnd
    · cases h
      exact .selfLoop (not_le.mp hfst) heq
  · intro h
    unfold edgeFault?
    cases h with
    | firstOutOfRange h => simp [h]
    | secondOutOfRange hfst h => simp [not_le.mpr hfst, h]
    | selfLoop hfst h => simp [not_le.mpr hfst, ← h]

theorem findSome?_edgeFault?_eq_none_iff :
    edges.findSome? (edgeFault? order) = none ↔
      ∀ e ∈ edges, e.1 < order ∧ e.2 < order ∧ e.1 ≠ e.2 := by
  simp only [List.findSome?_eq_none_iff, edgeFault?_eq_none_iff]

theorem findSome?_edgeFault?_eq_some_iff :
    edges.findSome? (edgeFault? order) = some fault ↔
      ∃ before e after, edges = before ++ e :: after ∧
        (∀ e' ∈ before, e'.1 < order ∧ e'.2 < order ∧ e'.1 ≠ e'.2) ∧ EdgeFault order e fault := by
  simp only [List.findSome?_eq_some_iff, edgeFault?_eq_some_iff, edgeFault?_eq_none_iff]
  grind

theorem EdgeFault.eq_outOfRange_or_selfLoop (h : EdgeFault order e fault) :
    (∃ v, fault = .outOfRange v order) ∨ ∃ v, fault = .selfLoop v := by
  cases h with
  | firstOutOfRange h => exact .inl ⟨_, rfl⟩
  | secondOutOfRange hfst h => exact .inl ⟨_, rfl⟩
  | selfLoop hfst h => exact .inr ⟨_, rfl⟩

theorem forall_mem_edges_iff :
    (∀ e ∈ edges, e.1 < order ∧ e.2 < order ∧ e.1 ≠ e.2) ↔
      ∀ v w, Listed edges v w → v < order ∧ v ≠ w := by
  constructor
  · rintro h v w (hmem | hmem)
    · exact ⟨(h _ hmem).1, (h _ hmem).2.2⟩
    · exact ⟨(h _ hmem).2.1, (h _ hmem).2.2.symm⟩
  · intro h e he
    have hfst := h e.1 e.2 (.inl he)
    have hsnd := h e.2 e.1 (.inr he)
    exact ⟨hfst.1, hsnd.1, hfst.2⟩

theorem Rearranged.listed_iff (h : Rearranged edges edges') (v w : ℕ) :
    Listed edges v w ↔ Listed edges' v w := by
  unfold Listed
  cases h with
  | reorder h => simp only [h.mem_iff]
  | duplicate h => grind
  | flip e =>
    obtain ⟨a, b⟩ := e
    simp only [Prod.swap_prod_mk]
    grind

theorem listed_iff_of_eqvGen (h : Relation.EqvGen Rearranged edges edges') :
    ∀ v w, Listed edges v w ↔ Listed edges' v w := by
  induction h with
  | rel _ _ h => exact h.listed_iff
  | refl _ => exact fun _ _ => Iff.rfl
  | symm _ _ _ ih => exact fun v w => (ih v w).symm
  | trans _ _ _ _ _ ih ih' => exact fun v w => (ih v w).trans (ih' v w)

end Edges

namespace Graph

variable {S : Type} [VertexSet S] [LawfulVertexSet S] {order : ℕ} {edges edges' : List Edge}
  {e : Error} {g h : Graph S}

theorem exists_ofEdges_eq_ok_iff :
    (∃ g : Graph S, ofEdges order edges = .ok g) ↔
      ∀ e ∈ edges, e.1 < order ∧ e.2 < order ∧ e.1 ≠ e.2 := by
  rw [← findSome?_edgeFault?_eq_none_iff]
  cases hfault : edges.findSome? (edgeFault? order) with
  | none =>
    obtain ⟨g, hg, -⟩ := exists_ofEdges (S := S) hfault
    simp [hg]
  | some fault => simp [ofEdges_of_fault hfault]

theorem order_of_ofEdges (hg : ofEdges order edges = .ok g) : g.order = order := by
  have hgood := findSome?_edgeFault?_eq_none_iff.mpr (exists_ofEdges_eq_ok_iff.mp ⟨g, hg⟩)
  obtain ⟨g', hg', horder, -⟩ := exists_ofEdges (S := S) hgood
  rwa [← Except.ok.inj (hg'.symm.trans hg)]

theorem adj_of_ofEdges (hg : ofEdges order edges = .ok g) (v w : ℕ) :
    g.adjacency.Adj v w ↔ Listed edges v w := by
  have hgood := findSome?_edgeFault?_eq_none_iff.mpr (exists_ofEdges_eq_ok_iff.mp ⟨g, hg⟩)
  obtain ⟨g', hg', -, hrows⟩ := exists_ofEdges (S := S) hgood
  rw [← Except.ok.inj (hg'.symm.trans hg), adj_iff, hrows, mem_ofList, mem_partners]
  rfl

theorem ofEdges_eq_error_iff :
    (ofEdges order edges : Except Error (Graph S)) = .error e ↔
      ∃ before edge after, edges = before ++ edge :: after ∧
        (∀ e' ∈ before, e'.1 < order ∧ e'.2 < order ∧ e'.1 ≠ e'.2) ∧ EdgeFault order edge e := by
  rw [← findSome?_edgeFault?_eq_some_iff]
  cases hfault : edges.findSome? (edgeFault? order) with
  | none =>
    obtain ⟨g, hg, -⟩ := exists_ofEdges (S := S) hfault
    simp [hg]
  | some fault => simp [ofEdges_of_fault hfault]

theorem ofEdges_error_cause (h : (ofEdges order edges : Except Error (Graph S)) = .error e) :
    (∃ v, e = .outOfRange v order) ∨ ∃ v, e = .selfLoop v := by
  obtain ⟨-, edge, -, -, -, hfault⟩ := ofEdges_eq_error_iff.mp h
  exact hfault.eq_outOfRange_or_selfLoop

/-- Edges between the same vertices make graphs that differ in the order of their rows at most. -/
theorem exists_ofEdges_of_listed_iff (hg : ofEdges order edges = .ok g)
    (hlisted : ∀ v w, Listed edges v w ↔ Listed edges' v w) :
    ∃ h : Graph S, ofEdges order edges' = .ok h ∧ h.order = g.order ∧
      ∀ v, SameMembers (h.neighbours v) (g.neighbours v) := by
  have hgood : ∀ e ∈ edges', e.1 < order ∧ e.2 < order ∧ e.1 ≠ e.2 := by
    have hedges := exists_ofEdges_eq_ok_iff.mp ⟨g, hg⟩
    simpa only [forall_mem_edges_iff, hlisted] using hedges
  obtain ⟨h, hh⟩ := exists_ofEdges_eq_ok_iff (S := S).mpr hgood
  have hrows : ∀ v, SameMembers (h.neighbours v) (g.neighbours v) := by
    intro v w
    simp only [← adj_iff, adj_of_ofEdges hg, adj_of_ofEdges hh, hlisted]
  exact ⟨h, hh, (order_of_ofEdges hh).trans (order_of_ofEdges hg).symm, hrows⟩

variable (S) in
/-- Edges make a graph exactly when each of them joins two different vertices below the order. The
graph then has these edges and no others, and rearranging the list, there and back, keeps its
neighbours, its size and its greatest degree. Otherwise the first edge at fault is the error. The
table that the edges fill keeps the rules, so no order of checking its rows finds a fault, and
neither one-sided adjacency nor an odd sum is ever the error. -/
theorem ofEdges_exact (order : ℕ) (edges : List Edge) :
    ((∃ g : Graph S, ofEdges order edges = .ok g) ↔
      ∀ e ∈ edges, e.1 < order ∧ e.2 < order ∧ e.1 ≠ e.2) ∧
    (∀ g : Graph S, ofEdges order edges = .ok g →
      g.order = order ∧
      (∀ v w, w ∈ toList (g.neighbours v) ↔ (v, w) ∈ edges ∨ (w, v) ∈ edges) ∧
      ∀ edges', Relation.EqvGen Rearranged edges edges' →
        ∃ h : Graph S, ofEdges order edges' = .ok h ∧ h.order = g.order ∧
          (∀ v w, w ∈ toList (h.neighbours v) ↔ w ∈ toList (g.neighbours v)) ∧
          h.size = g.size ∧ h.maxDegree = g.maxDegree) ∧
    (∀ e, (ofEdges order edges : Except Error (Graph S)) = .error e ↔
      ∃ before edge after, edges = before ++ edge :: after ∧
        (∀ e' ∈ before, e'.1 < order ∧ e'.2 < order ∧ e'.1 ≠ e'.2) ∧ EdgeFault order edge e) ∧
    (∀ t : Table S, Table.ofEdges order edges = .ok t →
      t.Valid ∧ ∀ rows (hrows : rows.Perm (List.range t.order)),
        ∃ g, ofTableInOrder t rows hrows = .ok g) ∧
    (∀ v w, (ofEdges order edges : Except Error (Graph S)) ≠ .error (.asymmetric v w)) ∧
    ∀ sum, (ofEdges order edges : Except Error (Graph S)) ≠ .error (.oddDegreeSum sum) := by
  refine ⟨exists_ofEdges_eq_ok_iff, fun g hg => ?_, fun e => ofEdges_eq_error_iff, fun t ht => ?_,
    fun v w h => ?_, fun sum h => ?_⟩
  · refine ⟨order_of_ofEdges hg, adj_of_ofEdges hg, fun edges' hedges => ?_⟩
    obtain ⟨h, hh, horder', hrows⟩ := exists_ofEdges_of_listed_iff hg (listed_iff_of_eqvGen hedges)
    have hdegrees : h.degrees = g.degrees := degrees_congr horder' hrows
    refine ⟨h, hh, horder', hrows, ?_, ?_⟩
    · simp only [size, Table.degreeSum, hdegrees]
    · simp only [maxDegree, hdegrees]
  · have hvalid := Table.valid_of_ofEdges ht
    exact ⟨hvalid, fun rows hrows => ⟨_, ofTableInOrder_of_valid hrows hvalid⟩⟩
  · simpa using ofEdges_error_cause h
  · simpa using ofEdges_error_cause h

def threeInRow : Graph IndexedSet where
  rows := #[ofList [1], ofList [0, 2], ofList [1]]
  valid := (Table.fault?_eq_none_iff _).mp (by decide +kernel)

theorem ofEdges_exact_threeInRow :
    ofEdges 3 [(0, 1), (2, 1)] = .ok threeInRow ∧
      Relation.EqvGen Rearranged [(0, 1), (2, 1)] [(1, 2), (0, 1), (1, 2)] ∧
      (∃ h : Graph IndexedSet, ofEdges 3 [(1, 2), (0, 1), (1, 2)] = .ok h ∧ h.size = 2 ∧
        h.maxDegree = 2) ∧
      (ofEdges 3 [(0, 1), (4, 4), (2, 2)] : Except Error (Graph IndexedSet)) =
        .error (.outOfRange 4 3) := by
  have hflip : Rearranged ([(0, 1)] ++ (2, 1) :: []) ([(0, 1)] ++ (1, 2) :: []) := .flip (2, 1)
  have hrepeat : Rearranged ([] ++ [(0, 1), (1, 2)]) ([] ++ (1, 2) :: [(0, 1), (1, 2)]) :=
    .duplicate (by simp)
  have hrearranged : Relation.EqvGen Rearranged [(0, 1), (2, 1)] [(1, 2), (0, 1), (1, 2)] :=
    .trans _ _ _ (.rel _ _ hflip) (.rel _ _ hrepeat)
  have hmade : ofEdges 3 [(0, 1), (2, 1)] = .ok threeInRow := by rfl
  have hsize : threeInRow.size = 2 ∧ threeInRow.maxDegree = 2 := by decide +kernel
  obtain ⟨-, haccepted, -⟩ := ofEdges_exact IndexedSet 3 [(0, 1), (2, 1)]
  obtain ⟨h, hh, -, -, hsize', hmax'⟩ := (haccepted _ hmade).2.2 _ hrearranged
  obtain ⟨-, -, hfault, -⟩ := ofEdges_exact IndexedSet 3 [(0, 1), (4, 4), (2, 2)]
  have hfirst : EdgeFault 3 (4, 4) (.outOfRange 4 3) := .firstOutOfRange (by decide)
  exact ⟨hmade, hrearranged, ⟨h, hh, hsize'.trans hsize.1, hmax'.trans hsize.2⟩,
    (hfault _).mpr ⟨[(0, 1)], (4, 4), [(2, 2)], rfl, by simp, hfirst⟩⟩

end Graph
end MaximalCliques

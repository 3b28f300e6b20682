import Mathlib.Combinatorics.Enumerative.DoubleCounting
import Mathlib.Combinatorics.SimpleGraph.Finite
import MaximalCliques.Proofs.Graph.Edges

/-!
# The width of an order of vertices

In an order every vertex has neighbours that come earlier and neighbours that come later. The width
of the order is the greatest number of later neighbours. It is no less than the degeneracy, because
a set of vertices has a first member, and that one has all its neighbours in the set still to come.
In an order of the vertices with neighbours, the later neighbours count every edge once.
-/

namespace MaximalCliques

def Before (order : List ℕ) (v w : ℕ) : Prop := [v, w].Sublist order

instance (order : List ℕ) : DecidableRel (Before order) :=
  fun v w => inferInstanceAs (Decidable ([v, w].Sublist order))

namespace Before

variable {us ws order : List ℕ} {v w : ℕ}

theorem mem_left (h : Before order v w) : v ∈ order := List.Sublist.subset h (by simp)

theorem mem_right (h : Before order v w) : w ∈ order := List.Sublist.subset h (by simp)

theorem reverse_iff : Before order.reverse v w ↔ Before order w v := by
  have hpair : [w, v].reverse.Sublist order.reverse ↔ [w, v].Sublist order := List.reverse_sublist
  exact hpair

theorem append_cons_iff_of_not_mem (hv : v ∉ us) : Before (us ++ v :: ws) v w ↔ w ∈ ws := by
  unfold Before
  induction us with
  | nil => rw [List.nil_append, List.cons_sublist_cons, List.singleton_sublist]
  | cons u us ih =>
    rw [List.mem_cons, not_or] at hv
    rw [List.cons_append, List.cons_sublist_cons', ih hv.2]
    simp [hv.1]

theorem right_iff (hnd : (us ++ v :: ws).Nodup) : Before (us ++ v :: ws) v w ↔ w ∈ ws := by
  rw [List.nodup_middle, List.nodup_cons, List.mem_append, not_or] at hnd
  exact append_cons_iff_of_not_mem hnd.1.1

theorem left_iff (hnd : (us ++ v :: ws).Nodup) : Before (us ++ v :: ws) w v ↔ w ∈ us := by
  rw [← List.nodup_reverse, List.reverse_append, List.reverse_cons, List.append_assoc,
    List.singleton_append] at hnd
  rw [← reverse_iff, List.reverse_append, List.reverse_cons, List.append_assoc,
    List.singleton_append, right_iff hnd, List.mem_reverse]

theorem not_iff (hnd : order.Nodup) (hv : v ∈ order) (hw : w ∈ order) (hne : v ≠ w) :
    ¬ Before order v w ↔ Before order w v := by
  obtain ⟨us, ws, rfl⟩ := List.append_of_mem hv
  rw [right_iff hnd, left_iff hnd]
  rw [List.mem_append, List.mem_cons] at hw
  rw [List.nodup_middle, List.nodup_cons] at hnd
  constructor
  · intro hnot
    simpa [hnot, hne.symm] using hw
  · exact fun hmem hmem' => List.disjoint_of_nodup_append hnd.2 hmem hmem'

/-- No member of a set stands before the first one. -/
theorem not_of_find? (hnd : order.Nodup) {W : Finset ℕ} (hfind : order.find? (· ∈ W) = some v)
    (hw : w ∈ W) : ¬ Before order w v := by
  obtain ⟨-, us, ws, rfl, hus⟩ := List.find?_eq_some_iff_append.mp hfind
  rw [left_iff hnd]
  intro hmem
  simpa [hw] using hus w hmem

end Before

namespace Graph

open VertexSet LawfulVertexSet

variable {S : Type} [VertexSet S]

instance (g : Graph S) : DecidableRel g.adjacency.Adj :=
  fun v w => inferInstanceAs (Decidable (w ∈ toList (g.neighbours v)))

/-- The greatest least degree among the subgraphs induced by some vertices. -/
def degeneracy (g : Graph S) : ℕ :=
  ((Finset.range g.order).powerset.filter Finset.Nonempty).sup fun W =>
    (g.adjacency.induce (W : Set ℕ)).minDegree

def laterNeighbours (g : Graph S) (order : List ℕ) (v : ℕ) : Finset ℕ :=
  order.toFinset.filter fun w => g.adjacency.Adj v w ∧ Before order v w

def earlierNeighbours (g : Graph S) (order : List ℕ) (v : ℕ) : Finset ℕ :=
  order.toFinset.filter fun w => g.adjacency.Adj w v ∧ Before order w v

/-- The greatest number of later neighbours of a vertex in the order. -/
def width (g : Graph S) (order : List ℕ) : ℕ :=
  order.toFinset.sup fun v => (g.laterNeighbours order v).card

variable (g : Graph S) {order : List ℕ} {v : ℕ}

theorem mem_laterNeighbours (w : ℕ) :
    w ∈ g.laterNeighbours order v ↔ g.adjacency.Adj v w ∧ Before order v w := by
  rw [laterNeighbours, Finset.mem_filter, and_iff_right_iff_imp]
  exact fun h => List.mem_toFinset.mpr h.2.mem_right

theorem mem_earlierNeighbours (w : ℕ) :
    w ∈ g.earlierNeighbours order v ↔ g.adjacency.Adj w v ∧ Before order w v := by
  rw [earlierNeighbours, Finset.mem_filter, and_iff_right_iff_imp]
  exact fun h => List.mem_toFinset.mpr h.2.mem_left

theorem card_laterNeighbours_le_width (hv : v ∈ order) :
    (g.laterNeighbours order v).card ≤ g.width order :=
  Finset.le_sup (f := fun v => (g.laterNeighbours order v).card) (List.mem_toFinset.mpr hv)

/-! ## The degeneracy bounds every width -/

theorem degree_induce {W : Finset ℕ} (v : (W : Set ℕ)) :
    (g.adjacency.induce (W : Set ℕ)).degree v = (W.filter (g.adjacency.Adj v)).card := by
  rw [← SimpleGraph.card_neighborFinset_eq_degree]
  refine Finset.card_bij (fun w _ => w.1) ?_ ?_ ?_
  · intro w hw
    rw [SimpleGraph.mem_neighborFinset] at hw
    exact Finset.mem_filter.mpr ⟨w.2, hw⟩
  · exact fun w _ u _ h => Subtype.ext h
  · intro w hw
    obtain ⟨hmem, hadj⟩ := Finset.mem_filter.mp hw
    exact ⟨⟨w, hmem⟩, by rwa [SimpleGraph.mem_neighborFinset], rfl⟩

theorem minDegree_induce_le {W : Finset ℕ} (hv : v ∈ W) :
    (g.adjacency.induce (W : Set ℕ)).minDegree ≤ (W.filter (g.adjacency.Adj v)).card := by
  rw [← g.degree_induce ⟨v, hv⟩]
  exact SimpleGraph.minDegree_le_degree _ _

/-- A set in which every member has `k` neighbours shows that the degeneracy is `k` or more. -/
theorem le_degeneracy {W : Finset ℕ} {k : ℕ} (hW : W.Nonempty) (hlt : ∀ v ∈ W, v < g.order)
    (hk : ∀ v ∈ W, k ≤ (W.filter (g.adjacency.Adj v)).card) : k ≤ g.degeneracy := by
  have hmem : W ∈ (Finset.range g.order).powerset.filter Finset.Nonempty := by
    rw [Finset.mem_filter, Finset.mem_powerset]
    exact ⟨fun v hv => Finset.mem_range.mpr (hlt v hv), hW⟩
  have : Nonempty (W : Set ℕ) := hW.to_subtype
  have hmin : k ≤ (g.adjacency.induce (W : Set ℕ)).minDegree :=
    SimpleGraph.le_minDegree_of_forall_le_degree _ k fun v => by
      rw [degree_induce]
      exact hk v v.2
  exact hmin.trans
    (Finset.le_sup (f := fun W : Finset ℕ => (g.adjacency.induce (W : Set ℕ)).minDegree) hmem)

theorem filter_adj_subset_laterNeighbours {W : Finset ℕ} (hW : ∀ w ∈ W, w ∈ order)
    (hfind : order.find? (· ∈ W) = some v) :
    W.filter (g.adjacency.Adj v) ⊆ g.laterNeighbours order v := by
  obtain ⟨hv, us, ws, rfl, hus⟩ := List.find?_eq_some_iff_append.mp hfind
  have hfirst : ∀ w ∈ W, w ∉ us := fun w hw hmem => by simpa [hw] using hus w hmem
  intro w hw
  obtain ⟨hw, hadj⟩ := Finset.mem_filter.mp hw
  rw [mem_laterNeighbours,
    Before.append_cons_iff_of_not_mem (hfirst v (of_decide_eq_true hv))]
  have hmem := hW w hw
  rw [List.mem_append, List.mem_cons] at hmem
  exact ⟨hadj, (hmem.resolve_left (hfirst w hw)).resolve_left hadj.ne'⟩

theorem exists_find?_eq_some {W : Finset ℕ} (hne : W.Nonempty) (hW : ∀ w ∈ W, w ∈ order) :
    ∃ v ∈ W, order.find? (· ∈ W) = some v := by
  obtain ⟨u, hu⟩ := hne
  have hsome : (order.find? (· ∈ W)).isSome := by
    rw [List.find?_isSome]
    exact ⟨u, hW u hu, by simpa using hu⟩
  obtain ⟨v, hfind⟩ := Option.isSome_iff_exists.mp hsome
  exact ⟨v, by simpa using List.find?_some hfind, hfind⟩

theorem degeneracy_le_width (hall : ∀ v ∈ g.adjacency.support, v ∈ order) :
    g.degeneracy ≤ g.width order := by
  refine Finset.sup_le fun W hW => ?_
  by_cases hzero : (g.adjacency.induce (W : Set ℕ)).minDegree = 0
  · rw [hzero]
    exact Nat.zero_le _
  · -- no member is isolated, so all of them are in the order
    have hmem : ∀ w ∈ W, w ∈ order := by
      intro w hw
      have hpos := (Nat.pos_of_ne_zero hzero).trans_le (g.minDegree_induce_le hw)
      obtain ⟨u, hu⟩ := Finset.card_pos.mp hpos
      exact hall w (g.adjacency.mem_support.mpr ⟨u, (Finset.mem_filter.mp hu).2⟩)
    obtain ⟨v, hv, hfind⟩ := exists_find?_eq_some (Finset.mem_filter.mp hW).2 hmem
    calc (g.adjacency.induce (W : Set ℕ)).minDegree
        ≤ (W.filter (g.adjacency.Adj v)).card := g.minDegree_induce_le hv
      _ ≤ (g.laterNeighbours order v).card :=
          Finset.card_le_card (g.filter_adj_subset_laterNeighbours hmem hfind)
      _ ≤ g.width order := g.card_laterNeighbours_le_width (hmem v hv)

/-! ## Later neighbours and edges -/

variable [LawfulVertexSet S]

theorem sum_degree (hall : ∀ v ∈ g.adjacency.support, v ∈ order) :
    ∑ v ∈ order.toFinset, g.degree v = g.degreeSum := by
  have hfilter : (order.toFinset.filter fun v => g.degree v ≠ 0) =
      g.vertices.toFinset.filter fun v => g.degree v ≠ 0 := by
    ext v
    simp only [Finset.mem_filter, List.mem_toFinset, vertices, List.mem_range, and_congr_left_iff,
      ← Nat.pos_iff_ne_zero, g.degree_pos_iff]
    intro hv
    obtain ⟨w, hadj⟩ := g.adjacency.mem_support.mp hv
    exact iff_of_true (hall v hv) (lt_order_of_adj hadj)
  rw [← Finset.sum_filter_ne_zero, hfilter, Finset.sum_filter_ne_zero,
    List.sum_toFinset (l := g.vertices) _ List.nodup_range, ← degrees_eq_map, ← total_eq_sum]
  rfl

theorem card_laterNeighbours_add (hnd : order.Nodup)
    (hall : ∀ v ∈ g.adjacency.support, v ∈ order) (hv : v ∈ order) :
    (g.laterNeighbours order v).card + (g.earlierNeighbours order v).card = g.degree v := by
  let neighbours := (toList (g.neighbours v)).toFinset
  have hlater : g.laterNeighbours order v = neighbours.filter (Before order v) := by
    ext w
    rw [mem_laterNeighbours, Finset.mem_filter, List.mem_toFinset, adj_iff]
  have hearlier : g.earlierNeighbours order v = neighbours.filter (¬ Before order v ·) := by
    ext w
    rw [mem_earlierNeighbours, Finset.mem_filter, List.mem_toFinset, ← adj_iff,
      g.adjacency.adj_comm w v]
    refine and_congr_right fun hadj => (Before.not_iff hnd hv ?_ hadj.ne).symm
    exact hall w (g.adjacency.mem_support.mpr ⟨v, hadj.symm⟩)
  rw [hlater, hearlier, Finset.card_filter_add_card_filter_not,
    List.toFinset_card_of_nodup (nodup_toList _), degree, size_eq_length]

/-- From the side of the vertex that comes first, every edge is counted once. -/
theorem sum_card_laterNeighbours (hnd : order.Nodup)
    (hall : ∀ v ∈ g.adjacency.support, v ∈ order) :
    ∑ v ∈ order.toFinset, (g.laterNeighbours order v).card = g.edges.length := by
  have hswap : ∑ v ∈ order.toFinset, (g.laterNeighbours order v).card =
      ∑ v ∈ order.toFinset, (g.earlierNeighbours order v).card :=
    Finset.sum_card_bipartiteAbove_eq_sum_card_bipartiteBelow
      fun v w => g.adjacency.Adj v w ∧ Before order v w
  have hboth : ∑ v ∈ order.toFinset,
      ((g.laterNeighbours order v).card + (g.earlierNeighbours order v).card) =
        2 * g.edges.length := by
    rw [← g.degreeSum_eq, ← g.sum_degree hall]
    exact Finset.sum_congr rfl fun v hv =>
      g.card_laterNeighbours_add hnd hall (List.mem_toFinset.mp hv)
  rw [Finset.sum_add_distrib] at hboth
  omega

end Graph
end MaximalCliques

import MaximalCliques.Proofs.Graph.DegeneracyOrder

/-!
# Draining the queue of the degeneracy order

A queue is asked for its next vertex again and again, and for the number of vertices still to come
before each request. Its answers spell out the degeneracy order and are empty from then on. Every
vertex of the order has the fewest later neighbours of all vertices that are not listed before it,
and an order that is cut short is the beginning of the whole one.
-/

namespace MaximalCliques

open VertexSet LawfulVertexSet

variable {S : Type} [VertexSet S]

namespace DegeneracyQueue

/-- The answers to `n` requests for the next vertex, each with the number of vertices still to come
before it. A queue with nothing to give stays as it is. -/
def answers (g : Graph S) : ℕ → DegeneracyQueue → List (ℕ × Option ℕ)
  | 0, _ => []
  | n + 1, q =>
    match next? g q with
    | none => (q.remaining, none) :: answers g n q
    | some (v, q') => (q.remaining, some v) :: answers g n q'

theorem next?_eq_none {g : Graph S} {q : DegeneracyQueue} (h : q.remaining = 0) :
    next? g q = none := by
  rw [next?, if_pos h]

variable [LawfulVertexSet S] {g : Graph S} {done : List ℕ} {q : DegeneracyQueue}

theorem Tracks.exists_take (h : Tracks g done q) (hpos : q.remaining ≠ 0) :
    ∃ v q', next? g q = some (v, q') ∧ Tracks g (done ++ [v]) q' ∧
      (∀ w ∈ g.waiting done, g.laterDegree done v ≤ g.laterDegree done w) ∧
      q.remaining = q'.remaining + 1 ∧
      take g q.remaining q = v :: take g q'.remaining q' := by
  obtain ⟨v, q', hnext, hv, hleast, h'⟩ := h.exists_next hpos
  have hrem : q.remaining = q'.remaining + 1 := by
    have hlen := List.length_pos_of_mem hv
    rw [h.remaining_eq, h'.remaining_eq, g.waiting_append, List.length_erase_of_mem hv]
    omega
  refine ⟨v, q', hnext, h', hleast, hrem, ?_⟩
  rw [hrem, take, hnext]

theorem Tracks.take_eq_take (h : Tracks g done q) (n : ℕ) :
    take g n q = (take g q.remaining q).take n := by
  induction n generalizing done q with
  | zero => rfl
  | succ n ih =>
    by_cases hpos : q.remaining = 0
    · rw [take, next?_eq_none hpos, hpos]
      rfl
    · obtain ⟨v, q', hnext, h', -, -, htake⟩ := h.exists_take hpos
      rw [htake, take, hnext, List.take_succ_cons, ← ih h']

theorem Tracks.answers_eq (h : Tracks g done q) (n : ℕ) :
    answers g n q =
      (List.range n).map fun i => (q.remaining - i, (take g q.remaining q)[i]?) := by
  induction n generalizing done q with
  | zero => rfl
  | succ n ih =>
    rw [List.range_succ_eq_map, List.map_cons, List.map_map, answers]
    by_cases hpos : q.remaining = 0
    · rw [next?_eq_none hpos]
      simp only [ih h, hpos, take]
      simp [Function.comp_def]
    · obtain ⟨v, q', hnext, h', -, hrem, htake⟩ := h.exists_take hpos
      rw [hnext, htake]
      simp only [ih h', hrem]
      simp [Function.comp_def]

/-- No vertex that waits has fewer later neighbours than the one that is taken. -/
theorem Tracks.laterDegree_getElem_le (h : Tracks g done q) (i : ℕ)
    (hi : i < (take g q.remaining q).length) :
    ∀ w ∈ g.waiting (done ++ (take g q.remaining q).take i),
      g.laterDegree (done ++ (take g q.remaining q).take i) (take g q.remaining q)[i] ≤
        g.laterDegree (done ++ (take g q.remaining q).take i) w := by
  induction i generalizing done q with
  | zero =>
    have hpos : q.remaining ≠ 0 := by
      intro hzero
      simp [hzero, take] at hi
    obtain ⟨v, q', -, -, hleast, -, htake⟩ := h.exists_take hpos
    simpa [htake] using hleast
  | succ i ih =>
    have hpos : q.remaining ≠ 0 := by
      intro hzero
      simp [hzero, take] at hi
    obtain ⟨v, q', -, h', -, -, htake⟩ := h.exists_take hpos
    simp only [htake, List.length_cons, Nat.add_lt_add_iff_right] at hi
    simpa [htake] using ih h' hi

end DegeneracyQueue

namespace Graph

open DegeneracyQueue

variable [LawfulVertexSet S] (g : Graph S)

theorem length_degeneracyOrder :
    g.degeneracyOrder.length = g.vertices.countP fun v => 0 < g.degree v := by
  rw [g.degeneracyOrder_perm.length_eq, List.countP_eq_length_filter]
  simp [waiting]

/-- The degeneracy order lists the vertices of positive degree, each once, and every vertex of it
has the fewest neighbours that are not listed before it among the vertices of positive degree that
are not listed before it. A queue that is asked for vertices gives those of the order one after
another and then nothing any more; before every request it knows how many are still to come. An
order that is cut after `n` vertices is the beginning of the whole order, and as long as `n` and the
number of vertices of positive degree allow. -/
theorem degeneracyOrder_least_first :
    (g.degeneracyOrder.Nodup ∧ ∀ v, v ∈ g.degeneracyOrder ↔ 0 < g.degree v) ∧
    (∀ (i : ℕ) (hi : i < g.degeneracyOrder.length) (w : ℕ), 0 < g.degree w →
      w ∉ g.degeneracyOrder.take i →
      g.laterDegree (g.degeneracyOrder.take i) g.degeneracyOrder[i] ≤
        g.laterDegree (g.degeneracyOrder.take i) w) ∧
    (∀ n, answers g n (start g) = (List.range n).map fun i =>
      (g.degeneracyOrder.length - i, g.degeneracyOrder[i]?)) ∧
    g.degeneracyOrdering none = g.degeneracyOrder ∧
    ∀ n, g.degeneracyOrdering (some n) <+: g.degeneracyOrdering none ∧
      (g.degeneracyOrdering (some n)).length =
        min n (g.vertices.countP fun v => 0 < g.degree v) := by
  have hstart := tracks_start g
  have hrem : (start g).remaining = g.degeneracyOrder.length := by
    rw [hstart.remaining_eq, g.degeneracyOrder_perm.length_eq]
  refine ⟨⟨g.nodup_degeneracyOrder, fun v => ?_⟩, fun i hi w hw hnot => ?_, fun n => ?_, rfl,
    fun n => ?_⟩
  · rw [g.mem_degeneracyOrder, g.degree_pos_iff]
  · have hleast := hstart.laterDegree_getElem_le i hi w
    rw [List.nil_append] at hleast
    exact hleast ((g.mem_waiting _ w).mpr ⟨hw, hnot⟩)
  · have hanswers := hstart.answers_eq n
    rw [← degeneracyOrder, hrem] at hanswers
    exact hanswers
  · have hcut : g.degeneracyOrdering (some n) = g.degeneracyOrder.take n := hstart.take_eq_take n
    rw [hcut]
    refine ⟨List.take_prefix n _, ?_⟩
    rw [List.length_take, g.length_degeneracyOrder]

/-- Once vertex 3 has left the diamond, the other three have two neighbours left each. -/
theorem degeneracyOrder_least_first_diamond :
    diamond.degeneracyOrder = [3, 2, 1, 0] ∧
      diamond.laterDegree [3] 2 ≤ diamond.laterDegree [3] 0 ∧
      answers diamond 5 (start diamond) =
        [(4, some 3), (3, some 2), (2, some 1), (1, some 0), (0, none)] := by
  obtain ⟨-, hleast, hanswers, -⟩ := degeneracyOrder_least_first diamond
  have horder : diamond.degeneracyOrder = [3, 2, 1, 0] := by decide +kernel
  refine ⟨horder, ?_, ?_⟩
  · have hone := hleast 1 (by rw [horder]; decide) 0 (by decide +kernel) (by rw [horder]; decide)
    simpa [horder] using hone
  · rw [hanswers, horder]
    decide

end Graph
end MaximalCliques

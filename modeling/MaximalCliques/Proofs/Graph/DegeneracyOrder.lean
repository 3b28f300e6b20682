import MaximalCliques.Proofs.Graph.BucketQueue

/-!
# The degeneracy order lists the vertices of positive degree

A queue tracks a graph of which some vertices have left when it is well-formed, the vertices of
positive degree that have not left wait in it, and the priority of each is the number of its
neighbours that have not left. This holds at the start, and every vertex that leaves keeps it.
-/

namespace MaximalCliques

open VertexSet LawfulVertexSet

variable {S : Type} [VertexSet S]

namespace Graph

/-- The vertices of positive degree that have not left. -/
def waiting (g : Graph S) (done : List ℕ) : List ℕ :=
  g.vertices.filter fun v => 0 < g.degree v ∧ v ∉ done

/-- The number of neighbours that have not left. -/
def laterDegree (g : Graph S) (done : List ℕ) (v : ℕ) : ℕ :=
  ((toList (g.neighbours v)).filter (· ∉ done)).length

theorem nodup_waiting (g : Graph S) (done : List ℕ) : (g.waiting done).Nodup :=
  List.nodup_range.filter _

theorem waiting_append (g : Graph S) (done : List ℕ) (v : ℕ) :
    g.waiting (done ++ [v]) = (g.waiting done).erase v := by
  rw [(g.nodup_waiting done).erase_eq_filter]
  unfold waiting
  rw [List.filter_filter]
  congr 1
  funext w
  by_cases h : w = v <;> simp [h]

theorem laterDegree_pos (g : Graph S) {done : List ℕ} {v w : ℕ} (hv : v ∉ done)
    (hw : w ∈ toList (g.neighbours v)) : 0 < g.laterDegree done w := by
  apply List.length_pos_of_mem (a := v)
  rw [List.mem_filter]
  exact ⟨g.valid.symmetric v w hw, by simpa using hv⟩

theorem degree_lt_maxDegree_succ (g : Graph S) {v : ℕ} (hv : v < g.order) :
    g.degree v < g.maxDegree + 1 := by
  have hmem : g.degree v ∈ g.degrees := by
    have hlt : v < g.rows.size := hv
    have hrow : g.neighbours v = g.rows[v] := by
      simp [neighbours, Table.row, Array.getD_eq_getD_getElem?, Array.getElem?_eq_getElem hlt]
    have hmem : g.neighbours v ∈ g.rows.toList := by
      rw [hrow]
      exact Array.getElem_mem_toList hlt
    exact List.mem_map.mpr ⟨g.neighbours v, hmem, rfl⟩
  have hmax := List.le_max?_getD_of_mem (k := 0) hmem
  exact Nat.lt_succ_of_le hmax

variable [LawfulVertexSet S]

theorem mem_waiting (g : Graph S) (done : List ℕ) (v : ℕ) :
    v ∈ g.waiting done ↔ 0 < g.degree v ∧ v ∉ done := by
  simp only [waiting, vertices, List.mem_filter, List.mem_range, decide_eq_true_eq,
    and_iff_right_iff_imp]
  rintro ⟨hdeg, -⟩
  obtain ⟨w, hw⟩ := g.adjacency.mem_support.mp ((g.degree_pos_iff v).mp hdeg)
  exact lt_order_of_adj hw

theorem laterDegree_nil (g : Graph S) (v : ℕ) : g.laterDegree [] v = g.degree v := by
  simp [laterDegree, degree, size_eq_length]

theorem laterDegree_append (g : Graph S) (done : List ℕ) {v : ℕ} (hv : v ∉ done) (w : ℕ) :
    g.laterDegree (done ++ [v]) w =
      if w ∈ toList (g.neighbours v) then g.laterDegree done w - 1 else g.laterDegree done w := by
  have herase : (toList (g.neighbours w)).filter (· ∉ done ++ [v]) =
      ((toList (g.neighbours w)).filter (· ∉ done)).erase v := by
    rw [((nodup_toList _).filter _).erase_eq_filter, List.filter_filter]
    congr 1
    funext u
    by_cases h : u = v <;> simp [h]
  have hadj : v ∈ toList (g.neighbours w) ↔ w ∈ toList (g.neighbours v) :=
    g.adjacency.adj_comm w v
  unfold laterDegree
  rw [herase]
  split_ifs with h
  · exact List.length_erase_of_mem (List.mem_filter.mpr ⟨hadj.mpr h, by simpa using hv⟩)
  · rw [List.erase_of_not_mem]
    exact fun hmem => h (hadj.mp (List.mem_of_mem_filter hmem))

end Graph

namespace DegeneracyQueue

/-- The queue of a graph of which the listed vertices have left. -/
structure Tracks (g : Graph S) (done : List ℕ) (q : DegeneracyQueue) : Prop where
  wellFormed : q.WellFormed
  priority_eq : ∀ v, q.priority v =
    if v ∈ g.waiting done then some (g.laterDegree done v) else none
  remaining_eq : q.remaining = (g.waiting done).length

variable {g : Graph S} {done : List ℕ} {q : DegeneracyQueue}

theorem Tracks.mem_waiting (h : Tracks g done q) {v p : ℕ} (hv : q.priority v = some p) :
    v ∈ g.waiting done ∧ p = g.laterDegree done v := by
  rw [h.priority_eq] at hv
  split_ifs at hv with hwait
  exact ⟨hwait, (Option.some.inj hv).symm⟩

theorem Tracks.exists_priority (h : Tracks g done q) (hpos : q.remaining ≠ 0) :
    ∃ u k, q.priority u = some k ∧ k < q.buckets.size := by
  obtain ⟨u, hu⟩ : ∃ u, u ∈ g.waiting done := by
    apply List.exists_mem_of_length_pos
    have := h.remaining_eq
    omega
  have hup : q.priority u = some (g.laterDegree done u) := by rw [h.priority_eq, if_pos hu]
  exact ⟨u, _, hup, lt_size_of_mem_bucket (h.wellFormed.mem_bucket u _ hup)⟩

variable [LawfulVertexSet S]

theorem tracks_start (g : Graph S) : Tracks g [] (start g) := by
  let blank : DegeneracyQueue :=
    { priorities := Array.replicate g.order none
      buckets := Array.replicate (g.maxDegree + 1) []
      lowest := 0
      remaining := (g.waiting []).length }
  have hstart : start g = (g.waiting []).foldl (fun q v => q.enter v (g.degree v)) blank := by
    simp [start, blank, Graph.waiting]
  have hbucket : ∀ k, blank.bucket k = [] := by
    intro k
    simp only [blank, bucket, Array.getD_eq_getD_getElem?, Array.getElem?_replicate]
    split_ifs <;> rfl
  have hprio : ∀ v, blank.priority v = none := by
    intro v
    simp only [blank, priority, Array.getD_eq_getD_getElem?, Array.getElem?_replicate]
    split_ifs <;> rfl
  have hblank : blank.WellFormed :=
    ⟨fun v p hv => by simp [hprio] at hv, fun v p hv => by simp [hprio] at hv,
      fun p => by simp [hbucket], fun p _ => hbucket p⟩
  have hfill : ∀ v ∈ g.waiting [], v < blank.priorities.size ∧
      g.degree v < blank.buckets.size ∧ ∀ k, v ∉ blank.bucket k := by
    intro v hv
    have hlt : v < g.order := List.mem_range.mp (List.mem_of_mem_filter hv)
    exact ⟨by simpa [blank] using hlt, by simpa [blank] using g.degree_lt_maxDegree_succ hlt,
      fun k => by simp [hbucket]⟩
  obtain ⟨hwf, hrem, hentered⟩ := hblank.foldl_enter g.degree (g.nodup_waiting []) hfill
  rw [← hstart] at hwf hrem hentered
  apply Tracks.mk hwf _ hrem
  intro v
  rw [hentered, hprio, g.laterDegree_nil]

theorem Tracks.priority_leave (h : Tracks g done q) (v w : ℕ) :
    (q.leave v).priority w =
      if w ∈ g.waiting (done ++ [v]) then some (g.laterDegree done w) else none := by
  rw [DegeneracyQueue.priority_leave, h.priority_eq]
  simp only [g.mem_waiting, List.mem_append, List.mem_singleton]
  by_cases hwv : w = v <;> simp [hwv]

/-- As long as a vertex waits, one of least priority leaves. -/
theorem Tracks.exists_next (h : Tracks g done q) (hpos : q.remaining ≠ 0) :
    ∃ v q', next? g q = some (v, q') ∧ v ∈ g.waiting done ∧
      (∀ w ∈ g.waiting done, g.laterDegree done v ≤ g.laterDegree done w) ∧
      Tracks g (done ++ [v]) q' := by
  obtain ⟨u, k, hup, hsize⟩ := h.exists_priority hpos
  obtain ⟨v, p, left, hpick, hv, hleast, hprios, hrem, hwf⟩ :=
    h.wellFormed.exists_pickFrom (n := q.buckets.size - q.lowest) hup (by omega)
  obtain ⟨hwait, hp⟩ := h.mem_waiting hv
  have hdone : v ∉ done := ((g.mem_waiting done v).mp hwait).2
  have hstay : ∀ w, (left.leave v).priority w =
      if w ∈ g.waiting (done ++ [v]) then some (g.laterDegree done w) else none := by
    intro w
    rw [← h.priority_leave v w]
    unfold leave priority
    rw [hprios]
  have hneighbour : ∀ w ∈ toList (g.neighbours v), (left.leave v).priority w ≠ some 0 := by
    intro w hw hzero
    rw [hstay] at hzero
    split_ifs at hzero
    exact (g.laterDegree_pos hdone hw).ne' (Option.some.inj hzero)
  obtain ⟨hwf', hrem', hprio'⟩ := hwf.foldl_lower (nodup_toList (g.neighbours v)) hneighbour
  refine ⟨v, (toList (g.neighbours v)).foldl lower (left.leave v), ?_, hwait, fun w hw => ?_,
    hwf', fun w => ?_, ?_⟩
  · unfold next? pick?
    rw [if_neg hpos, hpick]
    rfl
  · rw [← hp]
    exact hleast w _ (by rw [h.priority_eq, if_pos hw])
  · rw [hprio', hstay, g.laterDegree_append done hdone]
    split_ifs <;> rfl
  · rw [hrem', g.waiting_append, List.length_erase_of_mem hwait]
    change left.remaining - 1 = _
    rw [hrem, h.remaining_eq]

theorem Tracks.take_perm (h : Tracks g done q) :
    (take g q.remaining q).Perm (g.waiting done) := by
  induction hn : q.remaining generalizing done q with
  | zero =>
    have hnil : g.waiting done = [] := List.length_eq_zero_iff.mp (h.remaining_eq ▸ hn)
    rw [hnil, take]
  | succ n ih =>
    obtain ⟨v, q', hnext, hv, -, h'⟩ := h.exists_next (by omega)
    have hrem : q'.remaining = n := by
      have hlen := h.remaining_eq
      rw [h'.remaining_eq, g.waiting_append, List.length_erase_of_mem hv]
      omega
    rw [take, hnext]
    have hrest := ih h' hrem
    rw [g.waiting_append] at hrest
    exact (hrest.cons v).trans (List.perm_cons_erase hv).symm

end DegeneracyQueue

namespace Graph

variable [LawfulVertexSet S] (g : Graph S)

theorem degeneracyOrder_perm : g.degeneracyOrder.Perm (g.waiting []) :=
  (DegeneracyQueue.tracks_start g).take_perm

theorem nodup_degeneracyOrder : g.degeneracyOrder.Nodup :=
  g.degeneracyOrder_perm.nodup_iff.mpr (g.nodup_waiting [])

theorem mem_degeneracyOrder (v : ℕ) :
    v ∈ g.degeneracyOrder ↔ v ∈ g.adjacency.support := by
  rw [g.degeneracyOrder_perm.mem_iff, g.mem_waiting, g.degree_pos_iff]
  simp

end Graph
end MaximalCliques

import Mathlib.Algebra.Order.BigOperators.Group.Finset
import Mathlib.Logic.Relation
import MaximalCliques.Proofs.Graph.DegeneracyOrder

/-!
# A request to the bucket queue, step by step

A request for the next vertex looks at the latest entry of the lowest bucket again and again. It
passes over a bucket without entries, discards an entry that is stale, and lets the vertex of a live
entry leave, whose neighbours it then lowers one after another. The queue itself is total: it writes
nothing outside its tables and stops counting at zero. The steps are not: a request that would do
either, or that has passed over all buckets, is stuck.

Every step keeps what the request gives in the end, which is what the queue gives, and every step
uses up some of the work that the request has left.
-/

namespace MaximalCliques

open VertexSet LawfulVertexSet

variable {S : Type} [VertexSet S]

theorem Graph.degree_le_maxDegree [LawfulVertexSet S] (g : Graph S) (v : ℕ) :
    g.degree v ≤ g.maxDegree := by
  rcases Nat.eq_zero_or_pos (g.degree v) with hzero | hpos
  · rw [hzero]
    exact Nat.zero_le _
  · obtain ⟨w, hadj⟩ := g.adjacency.mem_support.mp ((g.degree_pos_iff v).mp hpos)
    exact Nat.le_of_lt_succ (g.degree_lt_maxDegree_succ (lt_order_of_adj hadj))

namespace DegeneracyQueue

def keepLowest (q : DegeneracyQueue) (rest : List ℕ) : DegeneracyQueue :=
  { q with buckets := q.buckets.setIfInBounds q.lowest rest }

def entryCount (q : DegeneracyQueue) : ℕ :=
  ∑ p ∈ Finset.range q.buckets.size, (q.bucket p).length

/-- A request on its way: it looks for a live entry, or `v` has left and the vertices `ws` are still
to be lowered. -/
inductive Request
  | picking (q : DegeneracyQueue)
  | lowering (v : ℕ) (ws : List ℕ) (q : DegeneracyQueue)

namespace Request

/-- One look at the lowest bucket, or one neighbour. What a step looks up must be in its table, and
what it counts down must not be zero. -/
inductive Step (g : Graph S) : Request → Request → Prop
  | pass {q} (hlowest : q.lowest < q.buckets.size) (hempty : q.bucket q.lowest = []) :
      Step g (.picking q) (.picking { q with lowest := q.lowest + 1 })
  | discard {q v rest} (htop : q.bucket q.lowest = v :: rest) (hv : v < q.priorities.size)
      (hstale : q.isLive q.lowest v = false) :
      Step g (.picking q) (.picking (q.keepLowest rest))
  | leave {q v rest} (htop : q.bucket q.lowest = v :: rest) (hv : v < q.priorities.size)
      (hlive : q.isLive q.lowest v = true) (hremaining : q.remaining ≠ 0) :
      Step g (.picking q)
        (.lowering v (toList (g.neighbours v)) ((q.keepLowest rest).leave v))
  | skip {v w ws q} (hw : w < q.priorities.size) (hgone : q.priority w = none) :
      Step g (.lowering v (w :: ws) q) (.lowering v ws q)
  | lower {v w ws q p} (hw : w < q.priorities.size) (hwaits : q.priority w = some (p + 1))
      (hp : p < q.buckets.size) :
      Step g (.lowering v (w :: ws) q) (.lowering v ws (q.enter w p))

/-- What the request gives in the end, if it does not get stuck. -/
def result (g : Graph S) : Request → Option (ℕ × DegeneracyQueue)
  | .picking q =>
    q.pick?.map fun (v, q) => (v, (toList (g.neighbours v)).foldl DegeneracyQueue.lower (q.leave v))
  | .lowering v ws q => some (v, ws.foldl DegeneracyQueue.lower q)

/-- A request can still take this many steps at most: it may have to discard all entries, pass over
all buckets and lower as many neighbours as any vertex has. -/
def work (g : Graph S) : Request → ℕ
  | .picking q => q.entryCount + (q.buckets.size - q.lowest) + g.maxDegree + 1
  | .lowering _ ws _ => ws.length

end Request

variable {g : Graph S} {q : DegeneracyQueue}

theorem next?_eq_result (g : Graph S) (h : q.remaining ≠ 0) :
    next? g q = (Request.picking q).result g := by
  rw [next?, if_neg h, Request.result]
  cases q.pick? <;> rfl

/-! ## Steps keep the result -/

@[simp] theorem size_buckets_keepLowest (q : DegeneracyQueue) (rest : List ℕ) :
    (q.keepLowest rest).buckets.size = q.buckets.size := by
  simp [keepLowest]

@[simp] theorem lowest_keepLowest (q : DegeneracyQueue) (rest : List ℕ) :
    (q.keepLowest rest).lowest = q.lowest := rfl

@[simp] theorem isLive_keepLowest (q : DegeneracyQueue) (rest : List ℕ) (p v : ℕ) :
    (q.keepLowest rest).isLive p v = q.isLive p v := rfl

@[simp] theorem keepLowest_keepLowest (q : DegeneracyQueue) (rest rest' : List ℕ) :
    (q.keepLowest rest).keepLowest rest' = q.keepLowest rest' := by
  simp [keepLowest]

theorem keepLowest_bucket (q : DegeneracyQueue) : q.keepLowest (q.bucket q.lowest) = q := by
  have hsame : q.buckets.setIfInBounds q.lowest (q.bucket q.lowest) = q.buckets := by
    apply Array.ext_getElem?
    intro p
    rw [Array.getElem?_setIfInBounds]
    split_ifs with hp hlt
    · subst hp
      simp [bucket, hlt]
    · subst hp
      simp [hlt]
    · rfl
  rw [keepLowest, hsame]

theorem bucket_keepLowest {v : ℕ} {rest : List ℕ} (htop : q.bucket q.lowest = v :: rest) (p : ℕ) :
    (q.keepLowest rest).bucket p = if p = q.lowest then rest else q.bucket p :=
  q.bucket_setIfInBounds q.lowest rest q.lowest p (htop ▸ List.subset_cons_self v rest)

theorem lowest_lt_size {v : ℕ} {rest : List ℕ} (htop : q.bucket q.lowest = v :: rest) :
    q.lowest < q.buckets.size :=
  lt_size_of_mem_bucket (v := v) (htop ▸ List.mem_cons_self)

theorem pick?_eq (hlowest : q.lowest < q.buckets.size) :
    q.pick? =
      match (q.bucket q.lowest).dropWhile fun w => !q.isLive q.lowest w with
      | v :: rest => some (v, q.keepLowest rest)
      | [] => pick? { q.keepLowest [] with lowest := q.lowest + 1 } := by
  have hlooks : q.buckets.size - q.lowest = q.buckets.size - (q.lowest + 1) + 1 := by omega
  unfold pick?
  rw [hlooks, pickFrom]
  cases (q.bucket q.lowest).dropWhile fun w => !q.isLive q.lowest w with
  | nil => simp [keepLowest]
  | cons v rest => rfl

theorem pick?_pass (hlowest : q.lowest < q.buckets.size) (hempty : q.bucket q.lowest = []) :
    pick? { q with lowest := q.lowest + 1 } = q.pick? := by
  have hsame : q.keepLowest [] = q := hempty ▸ q.keepLowest_bucket
  rw [pick?_eq hlowest, hempty, hsame]
  rfl

theorem pick?_discard {v : ℕ} {rest : List ℕ} (htop : q.bucket q.lowest = v :: rest)
    (hstale : q.isLive q.lowest v = false) : (q.keepLowest rest).pick? = q.pick? := by
  have hlowest := lowest_lt_size htop
  have hrest : (q.keepLowest rest).bucket q.lowest = rest := by
    rw [bucket_keepLowest htop, if_pos rfl]
  rw [pick?_eq hlowest, pick?_eq (by simpa using hlowest), htop,
    List.dropWhile_cons_of_pos (by simp [hstale])]
  simp only [lowest_keepLowest, isLive_keepLowest, keepLowest_keepLowest, hrest]

theorem pick?_leave {v : ℕ} {rest : List ℕ} (htop : q.bucket q.lowest = v :: rest)
    (hlive : q.isLive q.lowest v = true) : q.pick? = some (v, q.keepLowest rest) := by
  rw [pick?_eq (lowest_lt_size htop), htop, List.dropWhile_cons_of_neg (by simp [hlive])]

/-- No step changes what the request gives in the end. -/
theorem Request.Step.result_eq {r r' : Request} (h : Step g r r') : r'.result g = r.result g := by
  cases h with
  | pass hlowest hempty => simp only [result, pick?_pass hlowest hempty]
  | discard htop _ hstale => simp only [result, pick?_discard htop hstale]
  | leave htop _ hlive _ => simp only [result, pick?_leave htop hlive, Option.map_some]
  | skip _ hgone => simp only [result, List.foldl_cons, DegeneracyQueue.lower, hgone]
  | lower _ hwaits _ =>
    simp only [result, List.foldl_cons, DegeneracyQueue.lower, hwaits, Nat.add_sub_cancel]

/-! ## Steps use up work -/

theorem entryCount_keepLowest {v : ℕ} {rest : List ℕ} (htop : q.bucket q.lowest = v :: rest) :
    (q.keepLowest rest).entryCount < q.entryCount := by
  unfold entryCount
  rw [size_buckets_keepLowest]
  apply Finset.sum_lt_sum
  · intro p _
    rw [bucket_keepLowest htop]
    split_ifs with hp
    · simp [hp, htop]
    · exact le_rfl
  · refine ⟨q.lowest, Finset.mem_range.mpr (lowest_lt_size htop), ?_⟩
    simp [bucket_keepLowest htop, htop]

theorem Request.Step.work_lt [LawfulVertexSet S] {r r' : Request} (h : Step g r r') :
    r'.work g < r.work g := by
  cases h with
  | @pass q hlowest hempty =>
    have hentries : entryCount { q with lowest := q.lowest + 1 } = q.entryCount := rfl
    simp only [work, hentries]
    omega
  | discard htop _ _ =>
    have hentries := entryCount_keepLowest htop
    simp only [work, size_buckets_keepLowest, lowest_keepLowest]
    omega
  | @leave q v rest _ _ _ _ =>
    have hneighbours := g.degree_le_maxDegree v
    rw [Graph.degree, size_eq_length] at hneighbours
    simp only [work]
    omega
  | skip _ _ => simp [work]
  | lower _ _ _ => simp [work]

end DegeneracyQueue
end MaximalCliques

import Mathlib.Data.List.TakeWhile
import MaximalCliques.Graph.Degeneracy
import MaximalCliques.Proofs.Graph.Adjacency

/-!
# The bucket queue of the degeneracy order

Entries of buckets may be stale, but every vertex that waits has an entry in the bucket of its
priority and none in a lower one. `WellFormed` says this of the table alone, whatever the priorities
stand for. Entering vertices, lowering priorities and leaving keep it, and picking from such a table
finds a waiting vertex of least priority as long as there is one.
-/

namespace MaximalCliques

open VertexSet LawfulVertexSet

namespace DegeneracyQueue

variable {q : DegeneracyQueue} {v p : ℕ}

/-- The buckets agree with the priorities, up to stale entries above them. -/
structure WellFormed (q : DegeneracyQueue) : Prop where
  mem_bucket : ∀ v p, q.priority v = some p → v ∈ q.bucket p
  not_mem_below : ∀ v p, q.priority v = some p → ∀ k < p, v ∉ q.bucket k
  nodup_bucket : ∀ p, (q.bucket p).Nodup
  bucket_eq_nil : ∀ p < q.lowest, q.bucket p = []

theorem lt_size_of_priority (h : q.priority v = some p) : v < q.priorities.size := by
  by_contra! hle
  simp [priority, Array.getD_eq_getD_getElem?, Array.getElem?_eq_none hle] at h

theorem lt_size_of_mem_bucket (h : v ∈ q.bucket p) : p < q.buckets.size := by
  by_contra! hle
  simp [bucket, Array.getD_eq_getD_getElem?, Array.getElem?_eq_none hle] at h

theorem WellFormed.lowest_le (h : q.WellFormed) (hv : q.priority v = some p) : q.lowest ≤ p := by
  by_contra! hlt
  simpa [h.bucket_eq_nil p hlt] using h.mem_bucket v p hv

/-! ## Entering a vertex -/

@[simp] theorem size_priorities_enter : (q.enter v p).priorities.size = q.priorities.size := by
  simp [enter]

@[simp] theorem size_buckets_enter : (q.enter v p).buckets.size = q.buckets.size := by
  simp [enter]

theorem priority_enter (hv : v < q.priorities.size) (w : ℕ) :
    (q.enter v p).priority w = if w = v then some p else q.priority w := by
  simp only [enter, priority, Array.getD_eq_getD_getElem?, Array.getElem?_setIfInBounds]
  by_cases h : v = w
  · simp [h, h ▸ hv]
  · simp [h, Ne.symm h]

theorem bucket_enter (hp : p < q.buckets.size) (k : ℕ) :
    (q.enter v p).bucket k = if k = p then v :: q.bucket p else q.bucket k := by
  simp only [enter, bucket, Array.getD_eq_getD_getElem?, Array.getElem?_modify]
  by_cases h : p = k
  · simp [h, h ▸ hp]
  · simp [h, Ne.symm h]

/-- A vertex may enter a bucket if neither this one nor a lower one holds an entry of it. -/
theorem WellFormed.enter (h : q.WellFormed) (hv : v < q.priorities.size)
    (hp : p < q.buckets.size) (hfresh : ∀ k ≤ p, v ∉ q.bucket k) : (q.enter v p).WellFormed := by
  constructor
  · intro w r hw
    rw [priority_enter hv] at hw
    rw [bucket_enter hp]
    split_ifs at hw with hwv
    · cases hw
      simp [hwv]
    · split_ifs with hrp
      · exact List.mem_cons_of_mem v (hrp ▸ h.mem_bucket w r hw)
      · exact h.mem_bucket w r hw
  · intro w r hw k hk
    rw [priority_enter hv] at hw
    rw [bucket_enter hp]
    split_ifs at hw with hwv
    · cases hw
      rw [if_neg hk.ne, hwv]
      exact hfresh k hk.le
    · have hbelow := h.not_mem_below w r hw k hk
      split_ifs with hkp
      · rw [List.mem_cons, not_or]
        exact ⟨hwv, hkp ▸ hbelow⟩
      · exact hbelow
  · intro k
    rw [bucket_enter hp]
    split_ifs with hkp
    · exact List.nodup_cons.mpr ⟨hfresh p le_rfl, h.nodup_bucket p⟩
    · exact h.nodup_bucket k
  · intro k hk
    have hk' : k < q.lowest ∧ k < p := lt_min_iff.mp hk
    rw [bucket_enter hp, if_neg hk'.2.ne]
    exact h.bucket_eq_nil k hk'.1

theorem WellFormed.foldl_enter (h : q.WellFormed) (d : ℕ → ℕ) {vs : List ℕ} (hnd : vs.Nodup)
    (hvs : ∀ v ∈ vs, v < q.priorities.size ∧ d v < q.buckets.size ∧ ∀ k, v ∉ q.bucket k) :
    (vs.foldl (fun q v => q.enter v (d v)) q).WellFormed ∧
      (vs.foldl (fun q v => q.enter v (d v)) q).remaining = q.remaining ∧
      ∀ w, (vs.foldl (fun q v => q.enter v (d v)) q).priority w =
        if w ∈ vs then some (d w) else q.priority w := by
  induction vs generalizing q with
  | nil => exact ⟨h, rfl, fun w => by simp⟩
  | cons v vs ih =>
    obtain ⟨hfresh, hnd⟩ := List.nodup_cons.mp hnd
    obtain ⟨hv, hd, hempty⟩ := hvs v (by simp)
    have hnext : ∀ u ∈ vs, u < (q.enter v (d v)).priorities.size ∧
        d u < (q.enter v (d v)).buckets.size ∧ ∀ k, u ∉ (q.enter v (d v)).bucket k := by
      intro u hu
      obtain ⟨hu', hdu, hnone⟩ := hvs u (by simp [hu])
      refine ⟨by simpa using hu', by simpa using hdu, fun k => ?_⟩
      rw [bucket_enter hd]
      split_ifs with hk
      · rw [List.mem_cons, not_or]
        exact ⟨fun heq => hfresh (heq ▸ hu), hnone _⟩
      · exact hnone k
    obtain ⟨hwf, hrem, hprio⟩ := ih (h.enter hv hd fun k _ => hempty k) hnd hnext
    refine ⟨hwf, hrem, fun w => ?_⟩
    rw [List.foldl_cons, hprio, priority_enter hv]
    by_cases hw : w ∈ vs
    · simp [hw]
    · by_cases hwv : w = v <;> simp [hw, hwv]

/-! ## Lowering the neighbours of a vertex that left -/

theorem priority_lower (q : DegeneracyQueue) (v w : ℕ) :
    (q.lower v).priority w = if w = v then (q.priority v).map (· - 1) else q.priority w := by
  unfold lower
  cases hv : q.priority v with
  | none =>
    split_ifs with hwv
    · rw [hwv]
      exact hv
    · rfl
  | some p => exact priority_enter (lt_size_of_priority hv) w

@[simp] theorem remaining_lower (q : DegeneracyQueue) (v : ℕ) :
    (q.lower v).remaining = q.remaining := by
  unfold lower
  cases q.priority v <;> rfl

theorem WellFormed.lower (h : q.WellFormed) (hv : q.priority v ≠ some 0) :
    (q.lower v).WellFormed := by
  unfold DegeneracyQueue.lower
  cases hp : q.priority v with
  | none => exact h
  | some p =>
    have hpos : p ≠ 0 := fun h0 => hv (h0 ▸ hp)
    have hsize := lt_size_of_mem_bucket (h.mem_bucket v p hp)
    apply h.enter (lt_size_of_priority hp) (by omega)
    intro k hk
    exact h.not_mem_below v p hp k (by omega)

theorem WellFormed.foldl_lower (h : q.WellFormed) {ws : List ℕ} (hnd : ws.Nodup)
    (hws : ∀ w ∈ ws, q.priority w ≠ some 0) :
    (ws.foldl DegeneracyQueue.lower q).WellFormed ∧
      (ws.foldl DegeneracyQueue.lower q).remaining = q.remaining ∧
      ∀ v, (ws.foldl DegeneracyQueue.lower q).priority v =
        if v ∈ ws then (q.priority v).map (· - 1) else q.priority v := by
  induction ws generalizing q with
  | nil => exact ⟨h, rfl, fun v => by simp⟩
  | cons w ws ih =>
    obtain ⟨hfresh, hnd⟩ := List.nodup_cons.mp hnd
    have hkeep : ∀ u ∈ ws, (q.lower w).priority u = q.priority u := by
      intro u hu
      rw [priority_lower, if_neg]
      rintro rfl
      exact hfresh hu
    obtain ⟨hwf, hrem, hprio⟩ := ih (h.lower (hws w (by simp))) hnd fun u hu => by
      rw [hkeep u hu]
      exact hws u (by simp [hu])
    refine ⟨hwf, by simpa using hrem, fun v => ?_⟩
    rw [List.foldl_cons, hprio]
    by_cases hv : v ∈ ws
    · simp [hv, hkeep v hv]
    · rw [if_neg hv, priority_lower]
      by_cases hvw : v = w <;> simp [hv, hvw, hfresh]

/-! ## Picking a vertex -/

/-- The queue after a vertex was picked, before its neighbours are lowered. -/
def leave (q : DegeneracyQueue) (v : ℕ) : DegeneracyQueue :=
  { q with
    priorities := q.priorities.setIfInBounds v none
    remaining := q.remaining - 1 }

theorem priority_leave (q : DegeneracyQueue) (v w : ℕ) :
    (q.leave v).priority w = if w = v then none else q.priority w := by
  simp only [leave, priority, Array.getD_eq_getD_getElem?, Array.getElem?_setIfInBounds]
  by_cases h : v = w
  · subst h
    by_cases hlt : v < q.priorities.size <;> simp [hlt]
  · simp [h, Ne.symm h]

theorem bucket_setIfInBounds (q : DegeneracyQueue) (k : ℕ) (rest : List ℕ) (lowest j : ℕ)
    (hrest : rest ⊆ q.bucket k) :
    ({ q with buckets := q.buckets.setIfInBounds k rest, lowest := lowest } :
      DegeneracyQueue).bucket j = if j = k then rest else q.bucket j := by
  simp only [bucket, Array.getD_eq_getD_getElem?, Array.getElem?_setIfInBounds] at hrest ⊢
  by_cases h : k = j
  · subst h
    by_cases hlt : k < q.buckets.size
    · simp [hlt]
    · rw [Array.getElem?_eq_none (by omega)] at hrest
      simpa [hlt] using (List.subset_nil.mp hrest).symm
  · simp [h, Ne.symm h]

theorem WellFormed.leave (h : q.WellFormed) (v : ℕ) : (q.leave v).WellFormed := by
  have hprio : ∀ {w r}, (q.leave v).priority w = some r → q.priority w = some r := by
    intro w r hw
    rw [priority_leave] at hw
    split_ifs at hw
    exact hw
  exact ⟨fun w r hw => h.mem_bucket w r (hprio hw), fun w r hw => h.not_mem_below w r (hprio hw),
    h.nodup_bucket, h.bucket_eq_nil⟩

/-- Entries of the lowest bucket may be dropped if they are stale, and the bucket may be passed over
if it is empty then. -/
theorem WellFormed.shrink (h : q.WellFormed) {rest : List ℕ} {lowest : ℕ}
    (hrest : rest.Sublist (q.bucket q.lowest)) (hle : lowest ≤ q.lowest + 1)
    (hnil : q.lowest < lowest → rest = [])
    (hlive : ∀ w, q.priority w = some q.lowest → w ∈ rest) :
    ({ q with buckets := q.buckets.setIfInBounds q.lowest rest, lowest := lowest } :
      DegeneracyQueue).WellFormed := by
  have hbucket := fun j => bucket_setIfInBounds q q.lowest rest lowest j hrest.subset
  constructor
  · intro w r hw
    rw [hbucket]
    split_ifs with hr
    · exact hlive w (hr ▸ hw)
    · exact h.mem_bucket w r hw
  · intro w r hw k hk
    have hbelow := h.not_mem_below w r hw k hk
    rw [hbucket]
    split_ifs with hkl
    · exact fun hmem => hbelow (hkl ▸ hrest.subset hmem)
    · exact hbelow
  · intro k
    rw [hbucket]
    split_ifs
    · exact hrest.nodup (h.nodup_bucket _)
    · exact h.nodup_bucket k
  · intro k hk
    have hk' : k < lowest := hk
    rw [hbucket]
    split_ifs with hkl
    · exact hnil (by omega)
    · exact h.bucket_eq_nil k (by omega)

/-- If a vertex waits in one of the buckets looked at, a waiting vertex of least priority is
picked, and the table without it is well-formed. -/
theorem WellFormed.exists_pickFrom (h : q.WellFormed) {n u k : ℕ} (hu : q.priority u = some k)
    (hk : k < q.lowest + n) :
    ∃ v p q', q.pickFrom n = some (v, q') ∧ q.priority v = some p ∧
      (∀ w r, q.priority w = some r → p ≤ r) ∧ q'.priorities = q.priorities ∧
      q'.remaining = q.remaining ∧ (q'.leave v).WellFormed := by
  induction n generalizing q with
  | zero => exact absurd (h.lowest_le hu) (by omega)
  | succ n ih =>
    have hsplit := List.takeWhile_append_dropWhile (p := fun w => !q.isLive q.lowest w)
      (l := q.bucket q.lowest)
    have hstale : ∀ w ∈ (q.bucket q.lowest).takeWhile fun w => !q.isLive q.lowest w,
        q.priority w ≠ some q.lowest := by
      intro w hw
      simpa [isLive] using List.mem_takeWhile_imp hw
    rw [pickFrom]
    cases hdrop : (q.bucket q.lowest).dropWhile fun w => !q.isLive q.lowest w with
    | cons v rest =>
      rw [hdrop] at hsplit
      have hv : q.priority v = some q.lowest := by
        have hhead := List.head?_dropWhile_not (fun w => !q.isLive q.lowest w)
          (q.bucket q.lowest)
        rw [hdrop] at hhead
        simpa [isLive] using hhead
      have hrest : rest.Sublist (q.bucket q.lowest) := by
        rw [← hsplit]
        exact (List.sublist_cons_self v rest).trans (List.sublist_append_right _ _)
      refine ⟨v, q.lowest, _, rfl, hv, fun w r hw => h.lowest_le hw, rfl, rfl, ?_⟩
      apply (h.leave v).shrink hrest (Nat.le_succ _) fun hlt => absurd hlt (lt_irrefl _)
      intro w hw
      rw [priority_leave] at hw
      split_ifs at hw with hwv
      have hmem := h.mem_bucket w q.lowest hw
      rw [← hsplit, List.mem_append, List.mem_cons] at hmem
      rcases hmem with hmem | hmem | hmem
      · exact absurd hw (hstale w hmem)
      · exact absurd hmem hwv
      · exact hmem
    | nil =>
      rw [hdrop, List.append_nil] at hsplit
      have hnone : ∀ w, q.priority w ≠ some q.lowest := fun w hw =>
        hstale w (hsplit.symm ▸ h.mem_bucket w q.lowest hw) hw
      have hlowest := h.lowest_le hu
      have hne : k ≠ q.lowest := fun heq => hnone u (heq ▸ hu)
      have hnext : k < q.lowest + 1 + n := by omega
      exact ih (h.shrink (List.nil_sublist _) le_rfl (fun _ => rfl) fun w hw => absurd hw (hnone w))
        hu hnext

end DegeneracyQueue
end MaximalCliques

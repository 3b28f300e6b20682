import MaximalCliques.Proofs.Graph.Draining
import MaximalCliques.Proofs.Graph.Requests

/-!
# The invariant of the bucket queue

A request for the next vertex is sound as long as the queue tracks the graph, or, once a vertex has
left, as long as all waiting vertices but the neighbours still to be lowered count without it. Every
step keeps this although the lowest bucket moves up while a live entry is looked for and down again
while neighbours are lowered, and although stale entries stay behind. A sound request is never
stuck, because a vertex that waits has its entry in or above the lowest bucket. So every state that
requests lead to has the invariant, and every request comes to its end.
-/

namespace MaximalCliques

open VertexSet LawfulVertexSet

variable {S : Type} [VertexSet S]

namespace DegeneracyQueue

/-- The tables of the queue have room for every vertex of the graph and every degree, and their
entries are vertices of the graph. -/
structure Fits (g : Graph S) (q : DegeneracyQueue) : Prop where
  size_priorities : q.priorities.size = g.order
  size_buckets : q.buckets.size = g.maxDegree + 1
  lt_order : ∀ v p, v ∈ q.bucket p → v < g.order

/-- The queue of a graph of which the listed vertices have left and then `v`, while the neighbours
`ws` of `v` are still to be lowered: these count `v` as if it had not left. -/
structure Lowers (g : Graph S) (done : List ℕ) (v : ℕ) (ws : List ℕ) (q : DegeneracyQueue) :
    Prop where
  wellFormed : q.WellFormed
  fits : q.Fits g
  not_mem_done : v ∉ done
  suffix_neighbours : ws <:+ toList (g.neighbours v)
  priority_eq : ∀ w, q.priority w =
    if w ∈ g.waiting (done ++ [v]) then
      some (if w ∈ ws then g.laterDegree done w else g.laterDegree (done ++ [v]) w)
    else none
  remaining_eq : q.remaining = (g.waiting (done ++ [v])).length

/-- What holds of a request at every step, if the listed vertices have left before it. -/
def Request.Sound (g : Graph S) (done : List ℕ) : Request → Prop
  | .picking q => Tracks g done q ∧ q.Fits g ∧ q.remaining ≠ 0
  | .lowering v ws q => Lowers g done v ws q

variable {g : Graph S} {done : List ℕ} {q : DegeneracyQueue} {v p : ℕ} {ws : List ℕ}

/-! ## Room in the tables -/

theorem Fits.enter (h : q.Fits g) (hv : v < g.order) (hp : p < q.buckets.size) :
    (q.enter v p).Fits g := by
  constructor
  · rw [size_priorities_enter, h.size_priorities]
  · rw [size_buckets_enter, h.size_buckets]
  · intro w k hw
    rw [bucket_enter hp] at hw
    split_ifs at hw with hk
    · rcases List.mem_cons.mp hw with rfl | hw
      · exact hv
      · exact h.lt_order w p hw
    · exact h.lt_order w k hw

theorem Fits.keepLowest (h : q.Fits g) {rest : List ℕ} (htop : q.bucket q.lowest = v :: rest) :
    (q.keepLowest rest).Fits g := by
  constructor
  · exact h.size_priorities
  · rw [size_buckets_keepLowest, h.size_buckets]
  · intro w k hw
    rw [bucket_keepLowest htop] at hw
    split_ifs at hw with hk
    · exact h.lt_order w q.lowest (htop ▸ List.mem_cons_of_mem v hw)
    · exact h.lt_order w k hw

theorem Fits.leave (h : q.Fits g) (v : ℕ) : (q.leave v).Fits g :=
  ⟨by simp [DegeneracyQueue.leave, h.size_priorities], h.size_buckets, h.lt_order⟩

theorem Fits.foldl_enter (h : q.Fits g) {vs : List ℕ} (hvs : ∀ v ∈ vs, v < g.order) :
    (vs.foldl (fun q v => q.enter v (g.degree v)) q).Fits g := by
  induction vs generalizing q with
  | nil => exact h
  | cons v vs ih =>
    rw [List.forall_mem_cons] at hvs
    have hdegree : g.degree v < q.buckets.size := by
      rw [h.size_buckets]
      exact g.degree_lt_maxDegree_succ hvs.1
    exact ih (h.enter hvs.1 hdegree) hvs.2

theorem fits_start (g : Graph S) : (start g).Fits g := by
  unfold start
  apply Fits.foldl_enter
  · constructor
    · exact Array.size_replicate
    · exact Array.size_replicate
    · intro v p hv
      simp only [bucket, Array.getD_eq_getD_getElem?, Array.getElem?_replicate] at hv
      split_ifs at hv <;> cases hv
  · intro v hv
    exact List.mem_range.mp (List.mem_of_mem_filter hv)

/-! ## Requests do not get stuck -/

theorem Lowers.priority_ne_zero {w : ℕ} (h : Lowers g done v (w :: ws) q) :
    q.priority w ≠ some 0 := by
  intro hzero
  rw [h.priority_eq, if_pos List.mem_cons_self] at hzero
  split_ifs at hzero
  have hw : w ∈ toList (g.neighbours v) := h.suffix_neighbours.mem List.mem_cons_self
  exact (g.laterDegree_pos h.not_mem_done hw).ne' (Option.some.inj hzero)

theorem Tracks.exists_step (h : Tracks g done q) (hfits : q.Fits g) (hremaining : q.remaining ≠ 0) :
    ∃ r, Request.Step g (.picking q) r := by
  -- a vertex that waits has its entry no lower than the bucket looked at
  obtain ⟨u, k, hup, hsize⟩ := h.exists_priority hremaining
  have hlowest : q.lowest < q.buckets.size := (h.wellFormed.lowest_le hup).trans_lt hsize
  cases htop : q.bucket q.lowest with
  | nil => exact ⟨_, .pass hlowest htop⟩
  | cons v rest =>
    have hv : v < q.priorities.size := by
      rw [hfits.size_priorities]
      exact hfits.lt_order v q.lowest (htop ▸ List.mem_cons_self)
    cases hlive : q.isLive q.lowest v with
    | false => exact ⟨_, .discard htop hv hlive⟩
    | true => exact ⟨_, .leave htop hv hlive hremaining⟩

theorem Lowers.exists_step {w : ℕ} (h : Lowers g done v (w :: ws) q) :
    ∃ r, Request.Step g (.lowering v (w :: ws) q) r := by
  have hadj : w ∈ toList (g.neighbours v) := h.suffix_neighbours.mem List.mem_cons_self
  have hw : w < q.priorities.size := by
    rw [h.fits.size_priorities]
    exact g.valid.inRange v w hadj
  cases hp : q.priority w with
  | none => exact ⟨_, .skip hw hp⟩
  | some p =>
    cases p with
    | zero => exact absurd hp h.priority_ne_zero
    | succ p =>
      have hsize := lt_size_of_mem_bucket (h.wellFormed.mem_bucket w (p + 1) hp)
      exact ⟨_, .lower hw hp (by omega)⟩

theorem Request.Sound.exists_step {r : Request} (h : r.Sound g done) :
    (∃ r', Step g r r') ∨ ∃ v q', r = .lowering v [] q' := by
  cases r with
  | picking q =>
    obtain ⟨htracks, hfits, hremaining⟩ := h
    exact .inl (htracks.exists_step hfits hremaining)
  | lowering v ws q =>
    cases ws with
    | nil => exact .inr ⟨v, q, rfl⟩
    | cons w ws => exact .inl (Lowers.exists_step h)

/-! ## Every step keeps a request sound -/

theorem WellFormed.of_pass (h : q.WellFormed) (hempty : q.bucket q.lowest = []) :
    WellFormed { q with lowest := q.lowest + 1 } := by
  have hsame : q.keepLowest [] = q := hempty ▸ q.keepLowest_bucket
  have hshrink : WellFormed { q.keepLowest [] with lowest := q.lowest + 1 } := by
    apply h.shrink (List.nil_sublist _) le_rfl fun _ => rfl
    intro w hw
    exact hempty ▸ h.mem_bucket w q.lowest hw
  rwa [hsame] at hshrink

theorem WellFormed.keepLowest (h : q.WellFormed) {rest : List ℕ}
    (htop : q.bucket q.lowest = v :: rest) (hstale : q.priority v ≠ some q.lowest) :
    (q.keepLowest rest).WellFormed := by
  apply h.shrink (htop ▸ List.sublist_cons_self v rest) (Nat.le_succ _)
    fun hlt => absurd hlt (lt_irrefl _)
  intro w hw
  have hmem := h.mem_bucket w q.lowest hw
  rw [htop, List.mem_cons] at hmem
  rcases hmem with rfl | hmem
  · exact absurd hw hstale
  · exact hmem

theorem isLive_iff : q.isLive p v = true ↔ q.priority v = some p := by
  simp [isLive]

theorem Lowers.fits_lower (h : Lowers g done v ws q) (w : ℕ) : (q.lower w).Fits g := by
  unfold DegeneracyQueue.lower
  cases hp : q.priority w with
  | none => exact h.fits
  | some p =>
    have hw := lt_size_of_priority hp
    have hsize := lt_size_of_mem_bucket (h.wellFormed.mem_bucket w p hp)
    exact h.fits.enter (h.fits.size_priorities ▸ hw) (by omega)

section Lawful

variable [LawfulVertexSet S]

theorem Lowers.lower {w : ℕ} (h : Lowers g done v (w :: ws) q) :
    Lowers g done v ws (q.lower w) := by
  have hw : w ∈ toList (g.neighbours v) := h.suffix_neighbours.mem List.mem_cons_self
  have hfresh : w ∉ ws :=
    (List.nodup_cons.mp (h.suffix_neighbours.sublist.nodup (nodup_toList _))).1
  constructor
  · exact h.wellFormed.lower h.priority_ne_zero
  · exact h.fits_lower w
  · exact h.not_mem_done
  · exact (List.suffix_cons w ws).trans h.suffix_neighbours
  · intro u
    rw [priority_lower]
    -- `w` alone is lowered, and only now counts without `v`
    by_cases hu : u = w
    · subst hu
      rw [if_pos rfl, h.priority_eq, if_pos List.mem_cons_self, if_neg hfresh,
        g.laterDegree_append done h.not_mem_done, if_pos hw]
      split_ifs <;> rfl
    · rw [if_neg hu, h.priority_eq]
      simp only [List.mem_cons, hu, false_or]
  · rw [remaining_lower, h.remaining_eq]

theorem Tracks.lowers (h : Tracks g done q) (hfits : q.Fits g) {rest : List ℕ}
    (htop : q.bucket q.lowest = v :: rest) (hlive : q.priority v = some q.lowest) :
    Lowers g done v (toList (g.neighbours v)) ((q.keepLowest rest).leave v) := by
  obtain ⟨hv, -⟩ := h.mem_waiting hlive
  have hdone : v ∉ done := ((g.mem_waiting done v).mp hv).2
  have hgone : (q.leave v).priority v ≠ some q.lowest := by
    rw [DegeneracyQueue.priority_leave, if_pos rfl]
    exact nofun
  constructor
  · exact (h.wellFormed.leave v).keepLowest htop hgone
  · exact (hfits.keepLowest htop).leave v
  · exact hdone
  · exact List.suffix_rfl
  · intro w
    have hstay := h.priority_leave v w
    have hcount : (if w ∈ toList (g.neighbours v) then g.laterDegree done w
        else g.laterDegree (done ++ [v]) w) = g.laterDegree done w := by
      rw [g.laterDegree_append done hdone]
      split_ifs <;> rfl
    rw [hcount]
    exact hstay
  · rw [g.waiting_append, List.length_erase_of_mem hv, ← h.remaining_eq]
    rfl

theorem Request.Step.sound {r r' : Request} (h : Step g r r') (hr : r.Sound g done) :
    r'.Sound g done := by
  cases h with
  | pass _ hempty =>
    obtain ⟨htracks, hfits, hremaining⟩ := hr
    exact ⟨⟨htracks.wellFormed.of_pass hempty, htracks.priority_eq, htracks.remaining_eq⟩,
      ⟨hfits.size_priorities, hfits.size_buckets, hfits.lt_order⟩, hremaining⟩
  | @discard q v rest htop _ hstale =>
    obtain ⟨htracks, hfits, hremaining⟩ := hr
    have hgone : q.priority v ≠ some q.lowest := fun hlive => by
      rw [isLive_iff.mpr hlive] at hstale
      cases hstale
    exact ⟨⟨htracks.wellFormed.keepLowest htop hgone, htracks.priority_eq, htracks.remaining_eq⟩,
      hfits.keepLowest htop, hremaining⟩
  | leave htop _ hlive _ =>
    obtain ⟨htracks, hfits, -⟩ := hr
    exact htracks.lowers hfits htop (isLive_iff.mp hlive)
  | @skip v w ws q _ hgone =>
    have hsame : q.lower w = q := by rw [DegeneracyQueue.lower, hgone]
    exact hsame ▸ Lowers.lower hr
  | @lower v w ws q p _ hwaits _ =>
    have hsame : q.lower w = q.enter w p := by
      rw [DegeneracyQueue.lower, hwaits]
      rfl
    exact hsame ▸ Lowers.lower hr

theorem Request.Sound.of_steps {r r' : Request} (h : r.Sound g done)
    (hsteps : Relation.ReflTransGen (Step g) r r') :
    r'.Sound g done ∧ r'.result g = r.result g := by
  induction hsteps with
  | refl => exact ⟨h, rfl⟩
  | tail _ hstep ih => exact ⟨hstep.sound ih.1, hstep.result_eq.trans ih.2⟩

/-- A sound request comes to its end, by induction on the work left. -/
theorem Request.Sound.exists_end {r : Request} (h : r.Sound g done) :
    ∃ v q', Relation.ReflTransGen (Step g) r (.lowering v [] q') := by
  induction hwork : r.work g using Nat.strong_induction_on generalizing r with
  | _ n ih =>
    rcases h.exists_step with ⟨r', hstep⟩ | ⟨v, q', rfl⟩
    · obtain ⟨v, q', hsteps⟩ := ih _ (hwork ▸ hstep.work_lt) (hstep.sound h) rfl
      exact ⟨v, q', .head hstep hsteps⟩
    · exact ⟨v, q', .refl⟩

theorem Request.Sound.next?_eq {q' : DegeneracyQueue} (h : (picking q).Sound g done)
    (hsteps : Relation.ReflTransGen (Step g) (.picking q) (.lowering v [] q')) :
    next? g q = some (v, q') := by
  rw [next?_eq_result g h.2.2]
  exact (h.of_steps hsteps).2.symm

end Lawful

/-! ## The queue between requests -/

/-- The states of the queue between requests, with the vertices given so far. A request that gives
nothing leaves the queue as it is. -/
inductive Reachable (g : Graph S) : List ℕ → DegeneracyQueue → Prop
  | start : Reachable g [] (start g)
  | next {done q v q'} (h : Reachable g done q) (hnext : next? g q = some (v, q')) :
      Reachable g (done ++ [v]) q'

theorem remaining_ne_zero_of_next? {q' : DegeneracyQueue} (h : next? g q = some (v, q')) :
    q.remaining ≠ 0 := by
  intro hzero
  cases h.symm.trans (next?_eq_none hzero)

variable [LawfulVertexSet S]

theorem Reachable.tracks (h : Reachable g done q) : Tracks g done q := by
  induction h with
  | start => exact tracks_start g
  | next _ hnext ih =>
    obtain ⟨v, q', hnext', -, -, htracks⟩ := ih.exists_next (remaining_ne_zero_of_next? hnext)
    cases hnext.symm.trans hnext'
    exact htracks

theorem Reachable.fits (h : Reachable g done q) : q.Fits g := by
  induction h with
  | start => exact fits_start g
  | @next done q v q' h hnext ih =>
    have hremaining := remaining_ne_zero_of_next? hnext
    have hsound : (Request.picking q).Sound g done := ⟨h.tracks, ih, hremaining⟩
    -- the request ends with `q'`, and all its steps stay within the tables
    obtain ⟨w, left, hsteps⟩ := hsound.exists_end
    cases hnext.symm.trans (hsound.next?_eq hsteps)
    exact Lowers.fits (hsound.of_steps hsteps).1

theorem Reachable.sound (h : Reachable g done q) (hremaining : q.remaining ≠ 0) :
    (Request.picking q).Sound g done :=
  ⟨h.tracks, h.fits, hremaining⟩

theorem Tracks.priority_eq_none_or (h : Tracks g done q) (v : ℕ) :
    q.priority v = if g.degree v = 0 ∨ v ∈ done then none else some (g.laterDegree done v) := by
  have hnot : v ∉ g.waiting done ↔ g.degree v = 0 ∨ v ∈ done := by
    rw [g.mem_waiting, not_and_or, Nat.not_lt, Nat.le_zero, not_not]
  simp only [h.priority_eq, ← hnot, ite_not]

theorem Tracks.remaining_eq_countP (h : Tracks g done q) :
    q.remaining = g.vertices.countP fun v => (q.priority v).isSome := by
  rw [h.remaining_eq, List.countP_eq_length_filter, Graph.waiting]
  congr 2
  funext v
  rw [h.priority_eq_none_or]
  by_cases hdegree : g.degree v = 0
  · simp [hdegree]
  · by_cases hdone : v ∈ done <;> simp [hdegree, hdone, Nat.pos_of_ne_zero]

/-- In every state between requests, a vertex has no priority if it is isolated or was given
already, and otherwise its priority is the number of its neighbours not given yet. A vertex with a
priority has one entry in that bucket and none in a lower one. The buckets below the lowest are
empty, none holds a vertex twice, and as many vertices are still to come as have a priority. The
tables have room for all vertices and all degrees.

A request with vertices still to come stays sound and does not get stuck: it looks up nothing
outside the tables, lowers nothing that is zero and does not run out of buckets. It ends, since
every step leaves less to do, and it ends with the next vertex. -/
theorem reachable_invariant (g : Graph S) (h : Reachable g done q) :
    (∀ v, q.priority v =
      if g.degree v = 0 ∨ v ∈ done then none else some (g.laterDegree done v)) ∧
    (∀ v p, q.priority v = some p →
      (q.bucket p).count v = 1 ∧ ∀ k < p, v ∉ q.bucket k) ∧
    (∀ p < q.lowest, q.bucket p = []) ∧
    (∀ p, (q.bucket p).Nodup) ∧
    q.remaining = g.vertices.countP (fun v => (q.priority v).isSome) ∧
    (q.priorities.size = g.order ∧ ∀ v < g.order, g.degree v < q.buckets.size) ∧
    (q.remaining ≠ 0 →
      (∀ r, Relation.ReflTransGen (Request.Step g) (.picking q) r → r.Sound g done ∧
        ((∃ r', Request.Step g r r') ∨
          ∃ v q', r = .lowering v [] q' ∧ next? g q = some (v, q'))) ∧
      ∃ v q', next? g q = some (v, q') ∧
        Relation.ReflTransGen (Request.Step g) (.picking q) (.lowering v [] q')) ∧
    ∀ r r', Request.Step g r r' → r'.work g < r.work g := by
  have htracks := h.tracks
  have hwf := htracks.wellFormed
  have hroom : ∀ v < g.order, g.degree v < q.buckets.size := by
    intro v hv
    rw [h.fits.size_buckets]
    exact g.degree_lt_maxDegree_succ hv
  refine ⟨htracks.priority_eq_none_or, fun v p hp => ⟨?_, hwf.not_mem_below v p hp⟩,
    hwf.bucket_eq_nil, hwf.nodup_bucket, htracks.remaining_eq_countP,
    ⟨h.fits.size_priorities, hroom⟩, fun hremaining => ⟨fun r hsteps => ?_, ?_⟩,
    fun r r' hstep => hstep.work_lt⟩
  · exact List.count_eq_one_of_mem (hwf.nodup_bucket p) (hwf.mem_bucket v p hp)
  · have hsound := h.sound hremaining
    have hr := (hsound.of_steps hsteps).1
    rcases hr.exists_step with hstep | ⟨v, q', rfl⟩
    · exact ⟨hr, .inl hstep⟩
    · exact ⟨hr, .inr ⟨v, q', rfl, hsound.next?_eq hsteps⟩⟩
  · have hsound := h.sound hremaining
    obtain ⟨v, q', hsteps⟩ := hsound.exists_end
    exact ⟨v, q', hsound.next?_eq hsteps, hsteps⟩

/-- Vertex 3 of the diamond was given, so vertex 2 has two neighbours left and a stale entry in the
bucket of its degree. -/
theorem reachable_invariant_diamond :
    ∃ q, Reachable Graph.diamond [3] q ∧ q.remaining ≠ 0 ∧
      q.priority 2 = some 2 ∧ q.priority 3 = none ∧ (q.bucket 2).count 2 = 1 ∧
      2 ∈ q.bucket 3 ∧
      ∃ v q', next? Graph.diamond q = some (v, q') ∧
        Relation.ReflTransGen (Request.Step Graph.diamond) (.picking q) (.lowering v [] q') := by
  have hfirst : (next? Graph.diamond (start Graph.diamond)).map
      (fun r => (r.1, r.2.remaining, r.2.bucket 3)) = some (3, 3, [2, 1]) := by
    decide +kernel
  obtain ⟨⟨v, q⟩, hnext, hq⟩ := Option.map_eq_some_iff.mp hfirst
  simp only [Prod.mk.injEq] at hq
  obtain ⟨rfl, hremaining, hthree⟩ := hq
  have hreach : Reachable Graph.diamond [3] q := .next .start hnext
  obtain ⟨hpriority, hentry, -, -, -, -, hrequest, -⟩ := reachable_invariant Graph.diamond hreach
  have hpos : q.remaining ≠ 0 := by omega
  have htwo : q.priority 2 = some 2 := by
    rw [hpriority]
    decide +kernel
  have hgone : q.priority 3 = none := by
    rw [hpriority]
    decide +kernel
  exact ⟨q, hreach, hpos, htwo, hgone, (hentry 2 2 htwo).1, by simp [hthree], (hrequest hpos).2⟩

end DegeneracyQueue
end MaximalCliques

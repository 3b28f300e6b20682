import MaximalCliques.Proofs.Pool.Interleaving
import MaximalCliques.Proofs.Pool.Progress

/-!
# A pool delivers everything once

At any time the results that are not yet in the queue of results stand in lists: the rest of what
each worker is about to send, and what each job that is still to be taken will give. A move leaves
these lists alone, lets a worker take the list of a job in place of its own empty one, or takes the
first entry of a worker's list to the results. So what the caller receives interleaves the lists of
all jobs, and with one worker these follow each other.
-/

namespace MaximalCliques
namespace Pool

variable {J R : Type}

def Worker.pending : Worker R → List R
  | active rs => rs
  | returned => []

def Producer.pending : Producer J → List J
  | active js => js
  | returned => []

/-- The results that are not yet in the queue of results, worker by worker and job by job. -/
def State.outstanding (work : J → List R) (s : State J R) : List (List R) :=
  s.workers.toList.map Worker.pending ++ (s.jobs ++ s.producer.pending).map work

def State.delivered (s : State J R) : List R := s.received ++ s.results

variable {work : J → List R} {capacity : ℕ} {s t : State J R} {a : Action}

theorem map_pending_setIfInBounds {ws : Array (Worker R)} {i : ℕ} {w : Worker R}
    (h : ws[i]? = some w) :
    ∃ front back : List (List R), front.length + back.length + 1 = ws.size ∧
      ws.toList.map Worker.pending = front ++ w.pending :: back ∧
      ∀ w' : Worker R, (ws.setIfInBounds i w').toList.map Worker.pending =
        front ++ w'.pending :: back := by
  obtain ⟨hi, rfl⟩ := Array.getElem?_eq_some_iff.mp h
  have hset : ∀ w' : Worker R, (ws.setIfInBounds i w').toList.map Worker.pending =
      (ws.toList.take i).map Worker.pending ++
        w'.pending :: (ws.toList.drop (i + 1)).map Worker.pending := by
    intro w'
    rw [Array.toList_setIfInBounds, List.set_eq_take_append_cons_drop,
      if_pos (by simpa using hi), List.map_append, List.map_cons]
  refine ⟨_, _, ?_, ?_, hset⟩
  · simp only [List.length_map, List.length_take, List.length_drop, Array.length_toList]
    omega
  · rw [← hset, Array.setIfInBounds_def, dif_pos hi, Array.set_getElem_self]

/-- What a move means for the results: nothing, or a worker takes a list of results over, or it
sends the first of its results. -/
theorem Move.outstanding (h : Move work capacity s a t) :
    (t.delivered = s.delivered ∧ t.outstanding work = s.outstanding work) ∨
    (∃ front back queued rs, front.length + back.length + 1 = s.workers.size ∧
      t.delivered = s.delivered ∧
      s.outstanding work = front ++ [] :: (back ++ rs :: queued) ∧
      t.outstanding work = front ++ rs :: (back ++ queued)) ∨
    ∃ front others r rs, front.length < s.workers.size ∧
      t.delivered = s.delivered ++ [r] ∧
      s.outstanding work = front ++ (r :: rs) :: others ∧
      t.outstanding work = front ++ rs :: others := by
  cases h with
  | handOut hproducer _ =>
    left
    simp [State.delivered, State.outstanding, hproducer, Producer.pending]
  | producerReturns hproducer =>
    left
    simp [State.delivered, State.outstanding, hproducer, Producer.pending]
  | @take i j js hworker hjobs =>
    right; left
    obtain ⟨front, back, hsize, hws, hset⟩ := map_pending_setIfInBounds hworker
    refine ⟨front, back, (js ++ s.producer.pending).map work, work j, hsize, rfl, ?_, ?_⟩
    · simp [State.outstanding, hws, hjobs, Worker.pending]
    · simp only [State.outstanding, hset]
      simp [Worker.pending]
  | @send i r rs hworker _ =>
    right; right
    obtain ⟨front, back, hsize, hws, hset⟩ := map_pending_setIfInBounds hworker
    refine ⟨front, back ++ (s.jobs ++ s.producer.pending).map work, r, rs, by omega, ?_, ?_, ?_⟩
    · simp [State.delivered]
    · simp [State.outstanding, hws, Worker.pending]
    · simp only [State.outstanding, hset]
      simp [Worker.pending]
  | workerReturns hworker _ _ =>
    left
    obtain ⟨front, back, -, hws, hset⟩ := map_pending_setIfInBounds hworker
    simp only [State.outstanding, hset, hws]
    exact ⟨rfl, rfl⟩
  | release _ => exact Or.inl ⟨rfl, rfl⟩
  | receive _ hresults =>
    left
    simp [State.delivered, State.outstanding, hresults]
  | callerReturns _ _ _ => exact Or.inl ⟨rfl, rfl⟩

theorem Move.exists_interleaving (h : Move work capacity s a t) {ys : List R}
    (hys : Interleaving (t.outstanding work : Multiset (List R)) ys) :
    ∃ xs, Interleaving (s.outstanding work : Multiset (List R)) xs ∧
      s.delivered ++ xs = t.delivered ++ ys := by
  obtain ⟨hdelivered, hout⟩ | ⟨front, back, queued, rs, -, hdelivered, hs, ht⟩ |
    ⟨front, others, r, rs, -, hdelivered, hs, ht⟩ := h.outstanding
  · rw [hout] at hys
    exact ⟨ys, hys, by rw [hdelivered]⟩
  · refine ⟨ys, ?_, by rw [hdelivered]⟩
    have hcons : (s.outstanding work : Multiset (List R)) = [] ::ₘ ↑(t.outstanding work) := by
      rw [hs, ht, Multiset.cons_coe, Multiset.coe_eq_coe]
      apply List.perm_middle.trans
      apply List.Perm.cons
      apply List.Perm.append_left
      exact List.perm_middle
    rw [hcons]
    exact hys.skip
  · refine ⟨r :: ys, ?_, by simp [hdelivered]⟩
    have hs' : (s.outstanding work : Multiset (List R)) = (r :: rs) ::ₘ ↑(front ++ others) := by
      rw [hs, Multiset.cons_coe, Multiset.coe_eq_coe]
      exact List.perm_middle
    have ht' : (t.outstanding work : Multiset (List R)) = rs ::ₘ ↑(front ++ others) := by
      rw [ht, Multiset.cons_coe, Multiset.coe_eq_coe]
      exact List.perm_middle
    rw [hs']
    rw [ht'] at hys
    exact hys.cons

theorem Reachable.exists_interleaving {s₀ : State J R} (h : Reachable work capacity s₀ s)
    {ys : List R} (hys : Interleaving (s.outstanding work : Multiset (List R)) ys) :
    ∃ xs, Interleaving (s₀.outstanding work : Multiset (List R)) xs ∧
      s₀.delivered ++ xs = s.delivered ++ ys := by
  induction h generalizing ys with
  | start => exact ⟨ys, hys, rfl⟩
  | next _ hstep ih =>
    obtain ⟨zs, hzs, heq⟩ := (move_of_step hstep).exists_interleaving hys
    obtain ⟨xs, hxs, heq'⟩ := ih hzs
    exact ⟨xs, hxs, heq'.trans heq⟩

theorem Move.append_flatten (h : Move work capacity s a t) (hone : s.workers.size = 1) :
    t.delivered ++ (t.outstanding work).flatten = s.delivered ++ (s.outstanding work).flatten := by
  obtain ⟨hdelivered, hout⟩ | ⟨front, back, queued, rs, hsize, hdelivered, hs, ht⟩ |
    ⟨front, others, r, rs, hsize, hdelivered, hs, ht⟩ := h.outstanding
  · rw [hdelivered, hout]
  · obtain rfl : front = [] := List.length_eq_zero_iff.mp (by omega)
    obtain rfl : back = [] := List.length_eq_zero_iff.mp (by omega)
    simp [hdelivered, hs, ht]
  · obtain rfl : front = [] := List.length_eq_zero_iff.mp (by omega)
    simp [hdelivered, hs, ht]

theorem Reachable.append_flatten {s₀ : State J R} (h : Reachable work capacity s₀ s)
    (hone : s₀.workers.size = 1) :
    s.delivered ++ (s.outstanding work).flatten =
      s₀.delivered ++ (s₀.outstanding work).flatten := by
  induction h with
  | start => rfl
  | next h hstep ih =>
    rw [(move_of_step hstep).append_flatten (h.size_workers.trans hone), ih]

theorem flatten_outstanding_start (work : J → List R) (jobs : List J) (n : ℕ) :
    ((State.start jobs n : State J R).outstanding work).flatten = jobs.flatMap work := by
  simp [State.outstanding, State.start, Producer.pending, Worker.pending, List.flatMap]

theorem outstanding_of_isFinal (hfinal : s.isFinal = true) (hjobs : s.jobs = []) :
    ∀ rs ∈ s.outstanding work, rs = [] := by
  obtain ⟨hproducer, hall, -⟩ := State.isFinal_iff.mp hfinal
  intro rs hrs
  rw [State.outstanding, hjobs, hproducer, Producer.pending, List.append_nil, List.map_nil,
    List.append_nil] at hrs
  obtain ⟨w, hw, rfl⟩ := List.mem_map.mp hrs
  cases w with
  | active rs => cases hall _ (Array.mem_toList_iff.mp hw)
  | returned => rfl

section Start

variable {jobs : List J} {n : ℕ} (hn : 0 < n)
  (h : Reachable work capacity (State.start jobs n) s) (hcaller : s.caller = .returned)
include hn h hcaller

/-- What a caller has received when it returns interleaves the results of all jobs. -/
theorem Reachable.interleaving :
    Interleaving ((State.start jobs n : State J R).outstanding work : Multiset (List R))
      s.received := by
  obtain ⟨hfinal, hjobs, hresults⟩ := h.isFinal hn hcaller
  have hnil : Interleaving (s.outstanding work : Multiset (List R)) [] :=
    .of_forall_eq_nil (outstanding_of_isFinal hfinal hjobs)
  obtain ⟨xs, hxs, heq⟩ := h.exists_interleaving hnil
  obtain rfl : xs = s.received := by simpa [State.delivered, State.start, hresults] using heq
  exact hxs

theorem Reachable.received_perm : s.received.Perm (jobs.flatMap work) := by
  rw [← flatten_outstanding_start work jobs n]
  exact (h.interleaving hn hcaller).perm_flatten

theorem Reachable.sublist_received {j : J} (hj : j ∈ jobs) : (work j).Sublist s.received := by
  apply (h.interleaving hn hcaller).sublist
  rw [Multiset.mem_coe]
  apply List.mem_append_right
  simpa [State.start, Producer.pending] using ⟨j, hj, rfl⟩

omit hn in
theorem Reachable.received_eq (hone : n = 1) : s.received = jobs.flatMap work := by
  subst hone
  obtain ⟨hfinal, hjobs, hresults⟩ := h.isFinal one_pos hcaller
  have hnil : (s.outstanding work).flatten = [] :=
    List.flatten_eq_nil_iff.mpr (outstanding_of_isFinal hfinal hjobs)
  have heq := h.append_flatten (by simp [State.start])
  rw [flatten_outstanding_start, hnil] at heq
  simpa [State.delivered, State.start, hresults] using heq

end Start

theorem exists_process_eq {n : ℕ} (hn : 0 < n) (work : J → List R) (schedule : Schedule)
    (jobs : List J) :
    ∃ s, Reachable work n (State.start jobs n) s ∧ s.caller = .returned ∧
      process work n schedule jobs = s.received := by
  have hstart : Reachable work n (State.start jobs n) (State.start jobs n) := .start
  obtain ⟨h, hstuck⟩ := hstart.run_end schedule 0
  exact ⟨_, h, (State.isFinal_iff.mp (h.isFinal_of_stuck hn hstuck)).2.2, rfl⟩

end Pool
end MaximalCliques

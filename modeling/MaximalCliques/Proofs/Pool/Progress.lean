import MaximalCliques.Proofs.Pool.Moves

/-!
# A pool never gets stuck and always ends

The queues cannot block each other in a circle: while the caller listens, a full queue of results is
emptied, and with room for results every worker can go on, so jobs are taken as well. The load of a
state bounds the steps still to come.
-/

namespace MaximalCliques
namespace Pool

variable {J R : Type} {work : J → List R} {capacity : ℕ} {s t : State J R} {a : Action}

theorem exists_active_of_not_all (h : ¬ s.workers.all Worker.hasReturned = true) :
    ∃ (i : ℕ) (rs : List R), s.workers[i]? = some (Worker.active rs) := by
  simp only [Array.all_eq_true, not_forall, Bool.not_eq_true] at h
  obtain ⟨i, hi, hret⟩ := h
  cases hworker : s.workers[i] with
  | active rs => exact ⟨i, rs, by rw [Array.getElem?_eq_getElem hi, hworker]⟩
  | returned => simp [hworker, Worker.hasReturned] at hret

/-- A worker that has room for its results is held up by nobody: it sends, takes a job or returns,
or else the producer still has something to do and room to do it. -/
theorem exists_move_of_active {i : ℕ} {rs : List R} (hcapacity : 0 < capacity)
    (hresults : s.results = []) (hworker : s.workers[i]? = some (.active rs)) :
    ∃ a t, Move work capacity s a t := by
  cases rs with
  | cons r rs => exact ⟨_, _, .send hworker (by rw [hresults]; exact hcapacity)⟩
  | nil =>
    cases hjobs : s.jobs with
    | cons j js => exact ⟨_, _, .take hworker hjobs⟩
    | nil =>
      cases hproducer : s.producer with
      | returned => exact ⟨_, _, .workerReturns hworker hjobs hproducer⟩
      | active pending =>
        cases pending with
        | nil => exact ⟨_, _, .producerReturns hproducer⟩
        | cons j js => exact ⟨_, _, .handOut hproducer (by rw [hjobs]; exact hcapacity)⟩

/-- Until the caller returns, some party can move, as the queues have room for one at least. -/
theorem exists_move (hcapacity : 0 < capacity) (hcaller : s.caller ≠ .returned) :
    ∃ a t, Move work capacity s a t := by
  cases hc : s.caller with
  | starting => exact ⟨_, _, .release hc⟩
  | returned => exact absurd hc hcaller
  | receiving =>
    cases hresults : s.results with
    | cons r rs => exact ⟨_, _, .receive hc hresults⟩
    | nil =>
      by_cases hall : s.workers.all Worker.hasReturned = true
      · exact ⟨_, _, .callerReturns hc hresults hall⟩
      · obtain ⟨i, rs, hworker⟩ := exists_active_of_not_all hall
        exact exists_move_of_active hcapacity hresults hworker

theorem State.isFinal_iff : s.isFinal = true ↔
    s.producer = .returned ∧ (∀ w ∈ s.workers, w.hasReturned = true) ∧ s.caller = .returned := by
  unfold State.isFinal
  rw [Bool.and_eq_true, Bool.and_eq_true, Array.all_eq_true_iff_forall_mem, beq_iff_eq, and_assoc]
  apply and_congr_left'
  cases s.producer <;> simp [Producer.hasReturned]

theorem State.Closes.isFinal (h : s.Closes) (hworkers : 0 < s.workers.size)
    (hcaller : s.caller = .returned) : s.isFinal = true ∧ s.jobs = [] ∧ s.results = [] := by
  obtain ⟨hall, hresults⟩ := h.caller hcaller
  have hmem : s.workers[0] ∈ s.workers := Array.getElem_mem hworkers
  obtain ⟨hproducer, hjobs⟩ := h.worker _ hmem (hall _ hmem)
  exact ⟨State.isFinal_iff.mpr ⟨hproducer, hall, hcaller⟩, hjobs, hresults⟩

theorem step_eq_none_of_isFinal (h : s.isFinal = true) (a : Action) :
    step work capacity s a = none := by
  obtain ⟨hproducer, hall, hcaller⟩ := State.isFinal_iff.mp h
  have hactive : ∀ {i : ℕ} {rs : List R}, s.workers[i]? ≠ some (Worker.active rs) := by
    intro i rs hworker
    cases hall _ (Array.mem_of_getElem? hworker)
  rw [Option.eq_none_iff_forall_ne_some]
  intro t hstep
  cases move_of_step hstep with
  | handOut hp _ => cases hproducer.symm.trans hp
  | producerReturns hp => cases hproducer.symm.trans hp
  | take hworker _ => exact hactive hworker
  | send hworker _ => exact hactive hworker
  | workerReturns hworker _ _ => exact hactive hworker
  | release hc => cases hcaller.symm.trans hc
  | receive hc _ => cases hcaller.symm.trans hc
  | callerReturns hc _ _ => cases hcaller.symm.trans hc

/-- A sequence of states stops being a run, at the latest when the load of the first is used up. -/
theorem exists_not_step (work : J → List R) (capacity : ℕ) (f : ℕ → State J R) :
    ∃ n, ∀ a, step work capacity (f n) a ≠ some (f (n + 1)) := by
  by_contra hrun
  simp only [not_exists, not_forall, ne_eq, not_not] at hrun
  have hload : ∀ n, (f n).load work + n = (f 0).load work := by
    intro n
    induction n with
    | zero => rfl
    | succ n ih =>
      obtain ⟨a, hstep⟩ := hrun n
      have := load_step work hstep
      omega
  have := hload ((f 0).load work + 1)
  omega

/-! ## Runs under a schedule -/

theorem Move.mem_actions (h : Move work capacity s a t) : a ∈ actions s.workers.size := by
  have hlt : ∀ {i : ℕ} {w : Worker R}, s.workers[i]? = some w → i < s.workers.size := by
    intro i w hworker
    exact (Array.getElem?_eq_some_iff.mp hworker).1
  cases h with
  | take hworker _ => simp [actions, hlt hworker]
  | send hworker _ => simp [actions, hlt hworker]
  | workerReturns hworker _ _ => simp [actions, hlt hworker]
  | _ => simp [actions]

theorem step_eq_none_of_next? {k : ℕ} (h : next? work capacity k s = none) (a : Action) :
    step work capacity s a = none := by
  rw [Option.eq_none_iff_forall_ne_some]
  intro t hstep
  have hmem : a ∈ (actions s.workers.size).rotateLeft k := by
    have hperm : ((actions s.workers.size).rotateLeft k).Perm (actions s.workers.size) := by
      unfold List.rotateLeft
      dsimp only
      split_ifs
      · exact .refl _
      · exact List.perm_append_comm.trans (by rw [List.take_append_drop])
    exact hperm.mem_iff.mpr (move_of_step hstep).mem_actions
  have hnone := List.findSome?_eq_none_iff.mp h a hmem
  split at hnone
  · rename_i hnot
    cases hnot.symm.trans hstep
  · cases hnone

theorem Reachable.run_end {s₀ : State J R} (h : Reachable work capacity s₀ s) (schedule : Schedule)
    (k : ℕ) : Reachable work capacity s₀ (run work capacity schedule k s) ∧
      ∀ a, step work capacity (run work capacity schedule k s) a = none := by
  fun_induction run work capacity schedule k s with
  | case1 k s hnext => exact ⟨h, step_eq_none_of_next? hnext⟩
  | case2 k s t ht hnext ih =>
    apply ih
    obtain ⟨a, -, hfound⟩ := List.exists_of_findSome?_eq_some hnext
    split at hfound
    · cases hfound
    · rename_i hstep
      cases hfound
      exact h.next hstep

section Start

variable {jobs : List J} {n : ℕ} (hn : 0 < n)
include hn

theorem Reachable.isFinal (h : Reachable work capacity (State.start jobs n) s)
    (hcaller : s.caller = .returned) : s.isFinal = true ∧ s.jobs = [] ∧ s.results = [] := by
  apply h.closes.isFinal _ hcaller
  rw [h.size_workers]
  simpa [State.start] using hn

theorem Reachable.exists_step (h : Reachable work n (State.start jobs n) s)
    (hfinal : s.isFinal = false) : ∃ a t, step work n s a = some t := by
  have hcaller : s.caller ≠ .returned := by
    intro hcaller
    rw [(h.isFinal hn hcaller).1] at hfinal
    cases hfinal
  obtain ⟨a, t, hmove⟩ := exists_move hn hcaller
  exact ⟨a, t, step_eq_some_iff.mpr hmove⟩

theorem Reachable.isFinal_of_stuck (h : Reachable work n (State.start jobs n) s)
    (hstuck : ∀ a, step work n s a = none) : s.isFinal = true := by
  by_contra hfinal
  obtain ⟨a, t, hstep⟩ := h.exists_step hn (Bool.not_eq_true _ ▸ hfinal)
  cases (hstuck a).symm.trans hstep

/-- Whoever may take the jobs of a producer is not gone before it. -/
theorem Reachable.all_hasReturned (h : Reachable work capacity (State.start jobs n) s)
    (hproducer : s.producer ≠ .returned) : s.workers.all Worker.hasReturned = false := by
  have hsize : 0 < s.workers.size := by
    rw [h.size_workers]
    simpa [State.start] using hn
  have hmem : s.workers[0] ∈ s.workers := Array.getElem_mem hsize
  rw [← Bool.not_eq_true, Array.all_eq_true_iff_forall_mem]
  intro hall
  exact hproducer (h.closes.worker _ hmem (hall _ hmem)).1

end Start

end Pool
end MaximalCliques

import MaximalCliques.Pool.Run
import Mathlib.Data.List.Basic

/-!
# The moves of a pool

`Move` says for each action what it needs of a state and what it makes of it; `step` performs the
moves and nothing else. The states of a pool are those that steps lead to from its start.

Nobody returns too early: a worker returns after the producer and when no job is left, the caller
after all workers and when no result is left. `State.Closes` states this, every move keeps it, and
so a pool is done as soon as its caller has returned. As long as the caller has not, some party can
move.
-/

namespace MaximalCliques
namespace Pool

variable {J R : Type}

/-- What an action needs of a state and what it makes of it. -/
inductive Move (work : J → List R) (capacity : ℕ) (s : State J R) : Action → State J R → Prop
  | handOut {j js} (hproducer : s.producer = .active (j :: js))
      (hroom : s.jobs.length < capacity) :
      Move work capacity s .handOut { s with producer := .active js, jobs := s.jobs ++ [j] }
  | producerReturns (hproducer : s.producer = .active []) :
      Move work capacity s .producerReturns { s with producer := .returned }
  | take {i j js} (hworker : s.workers[i]? = some (.active [])) (hjobs : s.jobs = j :: js) :
      Move work capacity s (.take i)
        { s with jobs := js, workers := s.workers.setIfInBounds i (.active (work j)) }
  | send {i r rs} (hworker : s.workers[i]? = some (.active (r :: rs)))
      (hroom : s.results.length < capacity) :
      Move work capacity s (.send i)
        { s with
          workers := s.workers.setIfInBounds i (.active rs)
          results := s.results ++ [r] }
  | workerReturns {i} (hworker : s.workers[i]? = some (.active [])) (hjobs : s.jobs = [])
      (hproducer : s.producer = .returned) :
      Move work capacity s (.workerReturns i)
        { s with workers := s.workers.setIfInBounds i .returned }
  | release (hcaller : s.caller = .starting) :
      Move work capacity s .release { s with caller := .receiving }
  | receive {r rs} (hcaller : s.caller = .receiving) (hresults : s.results = r :: rs) :
      Move work capacity s .receive { s with results := rs, received := s.received ++ [r] }
  | callerReturns (hcaller : s.caller = .receiving) (hresults : s.results = [])
      (hworkers : s.workers.all Worker.hasReturned = true) :
      Move work capacity s .callerReturns { s with caller := .returned }

/-- The states that steps lead to, whichever parties make them. -/
inductive Reachable (work : J → List R) (capacity : ℕ) (s₀ : State J R) : State J R → Prop
  | start : Reachable work capacity s₀ s₀
  | next {s t a} (h : Reachable work capacity s₀ s) (hstep : step work capacity s a = some t) :
      Reachable work capacity s₀ t

variable {work : J → List R} {capacity : ℕ} {s t : State J R} {a : Action}

theorem move_of_step (h : step work capacity s a = some t) : Move work capacity s a t := by
  cases a with
  | handOut =>
    simp only [step] at h
    split at h
    · rename_i hproducer
      split_ifs at h with hroom
      cases h
      exact .handOut hproducer hroom
    · cases h
  | producerReturns =>
    simp only [step] at h
    split at h
    · rename_i hproducer
      cases h
      exact .producerReturns hproducer
    · cases h
  | take i =>
    simp only [step] at h
    split at h
    · rename_i hworker hjobs
      cases h
      exact .take hworker hjobs
    · cases h
  | send i =>
    simp only [step] at h
    split at h
    · rename_i hworker
      split_ifs at h with hroom
      cases h
      exact .send hworker hroom
    · cases h
  | workerReturns i =>
    simp only [step] at h
    split at h
    · rename_i hworker hjobs hproducer
      cases h
      exact .workerReturns hworker hjobs hproducer
    · cases h
  | release =>
    simp only [step] at h
    split at h
    · rename_i hcaller
      cases h
      exact .release hcaller
    · cases h
  | receive =>
    simp only [step] at h
    split at h
    · rename_i hcaller hresults
      cases h
      exact .receive hcaller hresults
    · cases h
  | callerReturns =>
    simp only [step] at h
    split at h
    · rename_i hcaller hresults
      split_ifs at h with hworkers
      cases h
      exact .callerReturns hcaller hresults hworkers
    · cases h

theorem step_eq_some_iff : step work capacity s a = some t ↔ Move work capacity s a t := by
  constructor
  · exact move_of_step
  · intro h
    cases h <;> simp [step, *]

theorem Reachable.induct {s₀ : State J R} {P : State J R → Prop} (hstart : P s₀)
    (hmove : ∀ s a t, Move work capacity s a t → P s → P t)
    (h : Reachable work capacity s₀ s) : P s := by
  induction h with
  | start => exact hstart
  | next _ hstep ih => exact hmove _ _ _ (move_of_step hstep) ih

theorem Move.size_workers (h : Move work capacity s a t) : t.workers.size = s.workers.size := by
  cases h <;> simp

theorem Reachable.size_workers {s₀ : State J R} (h : Reachable work capacity s₀ s) :
    s.workers.size = s₀.workers.size := by
  apply h.induct (P := fun s => s.workers.size = s₀.workers.size) rfl
  intro s a t hmove hs
  rw [hmove.size_workers, hs]

/-! ## Nobody returns too early -/

/-- Workers return after the producer and the last job, the caller after the workers and the last
result. -/
structure State.Closes (s : State J R) : Prop where
  worker : ∀ w ∈ s.workers, w.hasReturned = true → s.producer = .returned ∧ s.jobs = []
  caller : s.caller = .returned → (∀ w ∈ s.workers, w.hasReturned = true) ∧ s.results = []

theorem closes_start (jobs : List J) (n : ℕ) : (State.start jobs n : State J R).Closes := by
  constructor
  · intro w hw hret
    obtain ⟨-, rfl⟩ := Array.mem_replicate.mp hw
    cases hret
  · intro hcaller
    cases hcaller

theorem State.Closes.caller_ne {i : ℕ} {rs : List R} (h : s.Closes)
    (hworker : s.workers[i]? = some (.active rs)) : s.caller ≠ .returned := by
  intro hcaller
  cases (h.caller hcaller).1 _ (Array.mem_of_getElem? hworker)

theorem Move.closes (hmove : Move work capacity s a t) (h : s.Closes) : t.Closes := by
  cases hmove with
  | handOut hproducer hroom =>
    constructor
    · intro w hw hret
      have hdone : s.producer = .returned := (h.worker w hw hret).1
      rw [hproducer] at hdone
      cases hdone
    · exact h.caller
  | producerReturns hproducer => exact ⟨fun w hw hret => ⟨rfl, (h.worker w hw hret).2⟩, h.caller⟩
  | take hworker hjobs =>
    constructor
    · intro w hw hret
      rcases Array.mem_or_eq_of_mem_setIfInBounds hw with hw | rfl
      · have := (h.worker w hw hret).2
        rw [hjobs] at this
        cases this
      · cases hret
    · intro hcaller
      exact absurd hcaller (h.caller_ne hworker)
  | send hworker hroom =>
    constructor
    · intro w hw hret
      rcases Array.mem_or_eq_of_mem_setIfInBounds hw with hw | rfl
      · exact h.worker w hw hret
      · cases hret
    · intro hcaller
      exact absurd hcaller (h.caller_ne hworker)
  | workerReturns hworker hjobs hproducer =>
    constructor
    · intro w hw hret
      exact ⟨hproducer, hjobs⟩
    · intro hcaller
      exact absurd hcaller (h.caller_ne hworker)
  | release hcaller => exact ⟨h.worker, nofun⟩
  | receive hcaller hresults =>
    constructor
    · exact h.worker
    · intro hret
      cases hcaller.symm.trans hret
  | callerReturns hcaller hresults hworkers =>
    have hall := Array.all_eq_true_iff_forall_mem.mp hworkers
    exact ⟨h.worker, fun _ => ⟨hall, hresults⟩⟩

theorem Reachable.closes {jobs : List J} {n : ℕ}
    (h : Reachable work capacity (State.start jobs n) s) : s.Closes := by
  apply h.induct (closes_start jobs n)
  intro s a t hmove hs
  exact hmove.closes hs

end Pool
end MaximalCliques

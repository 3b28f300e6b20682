import MaximalCliques.Basic
import MaximalCliques.Pool.State

/-!
# Running a pool to its end

The load of a state counts the steps still to come: every step lowers it by one, so every run ends.
A schedule decides, step by step, which of the enabled actions happens next.
-/

namespace MaximalCliques
namespace Pool

variable {J R : Type} (work : J → List R)

/-- Steps to come on account of a producer: handing out each job, taking it, sending and receiving
its results, and returning. -/
def Producer.load : Producer J → Nat
  | active jobs => total (jobs.map fun j => 2 * (work j).length + 2) + 1
  | returned => 0

def Worker.load : Worker R → Nat
  | active results => 2 * results.length + 1
  | returned => 0

def Caller.load : Caller → Nat
  | starting => 2
  | receiving => 1
  | returned => 0

def State.load (s : State J R) : Nat :=
  s.producer.load work + total (s.jobs.map fun j => 2 * (work j).length + 1) +
    total (s.workers.toList.map Worker.load) + s.results.length + s.caller.load

theorem total_load_set (ws : List (Worker R)) (i : Nat) (w w' : Worker R) (h : ws[i]? = some w) :
    total ((ws.set i w').map Worker.load) + w.load = total (ws.map Worker.load) + w'.load := by
  induction ws generalizing i with
  | nil => simp at h
  | cons v vs ih =>
    cases i with
    | zero =>
      simp only [List.getElem?_cons_zero, Option.some.injEq] at h
      subst h
      simp only [List.set_cons_zero, List.map_cons, total]
      omega
    | succ i =>
      have := ih i (by simpa using h)
      simp only [List.set_cons_succ, List.map_cons, total]
      omega

theorem load_workers_set (ws : Array (Worker R)) (i : Nat) (w w' : Worker R)
    (h : ws[i]? = some w) :
    total ((ws.setIfInBounds i w').toList.map Worker.load) + w.load =
      total (ws.toList.map Worker.load) + w'.load := by
  rw [Array.toList_setIfInBounds]
  exact total_load_set _ _ _ _ (by simpa using h)

/-- Every step lowers the load by one. -/
theorem load_step {capacity : Nat} {s t : State J R} {a : Action}
    (h : step work capacity s a = some t) : t.load work + 1 = s.load work := by
  cases a with
  | handOut =>
    simp only [step] at h
    split at h
    · rename_i j js hp
      split at h
      · cases h
        simp [State.load, hp, Producer.load, total_append, total]; omega
      · cases h
    · cases h
  | producerReturns =>
    simp only [step] at h
    split at h
    · rename_i hp
      cases h
      simp [State.load, hp, Producer.load, total]; omega
    · cases h
  | take i =>
    simp only [step] at h
    split at h
    · rename_i j js hw hj
      cases h
      have := load_workers_set s.workers i _ (.active (work j)) hw
      simp only [Worker.load, List.length_nil] at this
      simp only [State.load, hj, List.map_cons, total]
      omega
    · cases h
  | send i =>
    simp only [step] at h
    split at h
    · rename_i r rs hw
      split at h
      · cases h
        have := load_workers_set s.workers i _ (.active rs) hw
        simp only [Worker.load, List.length_cons] at this
        simp only [State.load, List.length_append, List.length_singleton]
        omega
      · cases h
    · cases h
  | workerReturns i =>
    simp only [step] at h
    split at h
    · rename_i hw _ _
      cases h
      have := load_workers_set s.workers i _ .returned hw
      simp only [Worker.load, List.length_nil] at this
      simp only [State.load]
      omega
    · cases h
  | release =>
    simp only [step] at h
    split at h
    · rename_i hc
      cases h
      simp [State.load, hc, Caller.load]
    · cases h
  | receive =>
    simp only [step] at h
    split at h
    · rename_i r rs hc hr
      cases h
      simp only [State.load, hr, List.length_cons]
      omega
    · cases h
  | callerReturns =>
    simp only [step] at h
    split at h
    · rename_i hc hr
      split at h
      · cases h
        simp [State.load, hc, hr, Caller.load]
      · cases h
    · cases h

/-- A schedule says, for every point of a run, where to start looking for an enabled action. -/
abbrev Schedule := Nat → Nat

def Schedule.first : Schedule := fun _ => 0

/-- An enabled action and its outcome: the first one found from place `k` of the actions on. -/
def next? (capacity k : Nat) (s : State J R) :
    Option { t : State J R // t.load work < s.load work } :=
  ((actions s.workers.size).rotateLeft k).findSome? fun a =>
    match h : step work capacity s a with
    | none => none
    | some t => some ⟨t, by have := load_step work h; omega⟩

/-- Step from a state until nothing is enabled; `k` steps have been made before. -/
def run (capacity : Nat) (schedule : Schedule) (k : Nat) (s : State J R) : State J R :=
  match next? work capacity (schedule k) s with
  | none => s
  | some ⟨t, _⟩ => run capacity schedule (k + 1) t
termination_by s.load work

/-- What the caller of a pool of `workers` receives for the jobs. -/
def process (workers : Nat) (schedule : Schedule) (jobs : List J) : List R :=
  (run work workers schedule 0 (State.start jobs workers)).received

end Pool
end MaximalCliques

import Mathlib.Logic.Function.Basic
import MaximalCliques.Proofs.Pool.Progress

/-!
# Schedules give all interleavings

A schedule that looks at an enabled action first makes that action happen, so the steps of any run
can be scheduled one after another. What is true under every schedule is therefore true however the
parties of a pool take turns.
-/

namespace MaximalCliques
namespace Pool

variable {J R : Type} {work : J → List R} {capacity : ℕ} {s s₀ t : State J R} {a : Action}

theorem exists_rotateLeft_eq_cons {α : Type} {x : α} {xs : List α} (h : x ∈ xs) :
    ∃ k rest, xs.rotateLeft k = x :: rest := by
  obtain ⟨k, hk, rfl⟩ := List.mem_iff_getElem.mp h
  refine ⟨k, xs.drop (k + 1) ++ xs.take k, ?_⟩
  unfold List.rotateLeft
  dsimp only
  split_ifs with hlength
  · obtain rfl : k = 0 := by omega
    obtain ⟨y, rfl⟩ : ∃ y, xs = [y] := List.length_eq_one_iff.mp (by omega)
    simp
  · rw [Nat.mod_eq_of_lt hk, List.drop_eq_getElem_cons hk, List.cons_append]

theorem exists_next?_eq_some (h : step work capacity s a = some t) :
    ∃ k ht, next? work capacity k s = some ⟨t, ht⟩ := by
  obtain ⟨k, rest, hrotate⟩ := exists_rotateLeft_eq_cons (move_of_step h).mem_actions
  have hload := load_step work h
  refine ⟨k, by omega, ?_⟩
  rw [next?, hrotate, List.findSome?_cons]
  split
  · rename_i heq
    split at heq
    · cases heq
    · rename_i hstep
      cases h.symm.trans hstep
      exact heq.symm
  · rename_i heq
    split at heq
    · rename_i hstep
      cases h.symm.trans hstep
    · cases heq

theorem next?_eq_none_of_stuck (h : ∀ a, step work capacity s a = none) (k : ℕ) :
    next? work capacity k s = none := by
  rw [next?, List.findSome?_eq_none_iff]
  intro a _
  split
  · rfl
  · rename_i hstep
    cases (h a).symm.trans hstep

/-- Every schedule with the right beginning leads to a state that can be reached. -/
theorem Reachable.exists_run_eq (h : Reachable work capacity s₀ s) :
    ∃ (n : ℕ) (places : Schedule), ∀ schedule : Schedule, (∀ i < n, schedule i = places i) →
      run work capacity schedule 0 s₀ = run work capacity schedule n s := by
  induction h with
  | start => exact ⟨0, Schedule.first, fun _ _ => rfl⟩
  | next h hstep ih =>
    obtain ⟨n, places, hrun⟩ := ih
    obtain ⟨k, ht, hnext⟩ := exists_next?_eq_some hstep
    refine ⟨n + 1, Function.update places n k, fun schedule hschedule => ?_⟩
    have hlast : schedule n = k := by rw [hschedule n n.lt_succ_self, Function.update_self]
    rw [hrun schedule fun i hi => ?_, run, hlast, hnext]
    rw [hschedule i (Nat.lt_succ_of_lt hi), Function.update_of_ne (Nat.ne_of_lt hi)]

theorem Reachable.exists_schedule (h : Reachable work capacity s₀ s)
    (hstuck : ∀ a, step work capacity s a = none) :
    ∃ schedule, run work capacity schedule 0 s₀ = s := by
  obtain ⟨n, places, hrun⟩ := h.exists_run_eq
  exact ⟨places, by rw [hrun places fun _ _ => rfl, run, next?_eq_none_of_stuck hstuck]⟩

/-- What a caller has received when it returns is what the pool gives under some schedule. -/
theorem Reachable.exists_process_eq_received {jobs : List J} {n : ℕ} (hn : 0 < n)
    (h : Reachable work n (State.start jobs n) s) (hcaller : s.caller = .returned) :
    ∃ schedule, process work n schedule jobs = s.received := by
  have hfinal := (h.isFinal hn hcaller).1
  obtain ⟨schedule, hrun⟩ := h.exists_schedule (step_eq_none_of_isFinal hfinal)
  exact ⟨schedule, by rw [process, hrun]⟩

end Pool
end MaximalCliques

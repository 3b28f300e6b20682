import MaximalCliques.Algorithm.Explore
import MaximalCliques.Proofs.Pool.Delivery
import MaximalCliques.Proofs.Pool.Schedules
import MaximalCliques.Proofs.Search.Roots

/-!
# The parallel algorithm

The jobs of the pool are the roots, the results of a job are the cliques found from its root. The
pool always ends, and its caller then has the cliques of the sequential search in an order that
mixes the roots but not the cliques of one root.
-/

namespace MaximalCliques

open Pool

variable {S : Type} [VertexSet S]

namespace Graph

/-- A pool of one or more workers that searches all roots has a next step as long as it is not done,
and every step lowers the load. So no run goes on for ever, and a run that cannot go on is done.
Whoever has something to send finds a receiver left. -/
theorem searchParallel_ends (g : Graph S) (choice : PivotChoice) {threads : ℕ}
    (hthreads : 0 < threads) :
    (∀ s, Reachable (Root.search g choice) threads (.start g.roots threads) s →
      s.isFinal = false → ∃ a t, step (Root.search g choice) threads s a = some t) ∧
    (∀ s t a, step (Root.search g choice) threads s a = some t →
      t.load (Root.search g choice) < s.load (Root.search g choice)) ∧
    (∀ run : ℕ → State (Root S) Clique, run 0 = .start g.roots threads →
      ∃ n, ∀ a, step (Root.search g choice) threads (run n) a ≠ some (run (n + 1))) ∧
    (∀ s, Reachable (Root.search g choice) threads (.start g.roots threads) s →
      ((∀ a, step (Root.search g choice) threads s a = none) ↔ s.isFinal = true)) ∧
    (∀ s, Reachable (Root.search g choice) threads (.start g.roots threads) s →
      ∀ pending, s.producer = .active pending → s.workers.all Worker.hasReturned = false) ∧
    ∀ s, Reachable (Root.search g choice) threads (.start g.roots threads) s →
      ∀ (i : ℕ) pending, s.workers[i]? = some (Worker.active pending) → s.caller ≠ .returned := by
  refine ⟨fun s h => h.exists_step hthreads, fun s t a hstep => ?_,
    fun run _ => exists_not_step _ _ run, fun s h => ⟨?_, step_eq_none_of_isFinal⟩,
    fun s h pending hproducer => ?_, fun s h i pending => h.closes.caller_ne⟩
  · have := load_step _ hstep
    omega
  · exact h.isFinal_of_stuck hthreads
  · apply h.all_hasReturned hthreads
    rw [hproducer]
    nofun

/-- Two workers on the diamond can start, and no run of theirs goes on for ever. -/
theorem searchParallel_ends_diamond :
    0 < 2 ∧
      (∃ a t, step (Root.search diamond .amongAll) 2 (.start diamond.roots 2) a = some t) ∧
      ∀ run : ℕ → State (Root DenseSet) Clique, run 0 = .start diamond.roots 2 →
        ∃ n, ∀ a, step (Root.search diamond .amongAll) 2 (run n) a ≠ some (run (n + 1)) := by
  have hends := searchParallel_ends diamond .amongAll two_pos
  exact ⟨two_pos, hends.1 _ .start rfl, hends.2.2.1⟩

theorem searchParallel_of_fits (g : Graph S) (choice : PivotChoice) {threads : ℕ}
    (hpos : 0 < threads) (hroom : Root.QueueFits S threads) (schedule : Schedule) :
    g.searchParallel choice threads schedule =
      .ok (process (Root.search g choice) threads schedule g.roots) := by
  rw [searchParallel, if_neg hpos.ne', if_pos hroom]

theorem searchParallel_of_not_fits (g : Graph S) (choice : PivotChoice) {threads : ℕ}
    (hpos : 0 < threads) (hroom : ¬ Root.QueueFits S threads) (schedule : Schedule) :
    g.searchParallel choice threads schedule = .error .capacityOverflow := by
  rw [searchParallel, if_neg hpos.ne', if_neg hroom]

end Graph

namespace Algorithm

variable [LawfulVertexSet S]

/-- Searching from the roots one after another gives the reporter their cliques in this order. However
the parties of a pool take turns, once its caller has returned everyone is done, nothing is left in a
queue and nothing more can happen. What the caller has received are the cliques of the sequential
search, those of each root in their order, and with one worker all of them. Exploring gives the
reporter what such a caller has received, one clique after another, and any of these callers is
met under some schedule; without workers, or with queues that no array can hold, it gives it
nothing. -/
theorem explore_parallel (g : Graph S) (choice : PivotChoice) :
    (∀ schedule,
      (∀ (R : Type) [Reporter R] (r : R),
        (degeneracy choice).explore schedule g r =
          ⟨(g.searchRoots choice).foldl Reporter.record r, .ok ()⟩) ∧
      ((degeneracy choice).explore schedule g ({} : CollectingReporter)).reporter.cliques.toList =
        g.searchRoots choice) ∧
    (∀ threads, 0 < threads → ∀ s,
      Reachable (Root.search g choice) threads (.start g.roots threads) s →
      s.caller = .returned →
      s.isFinal = true ∧ s.jobs = [] ∧ s.results = [] ∧
      (∀ a, step (Root.search g choice) threads s a = none) ∧
      s.received.Perm (g.searchRoots choice) ∧
      (∀ root ∈ g.roots,
        s.received.filter (fun c => decide (c ∈ Root.search g choice root)) =
          (g.searchRoots choice).filter fun c => decide (c ∈ Root.search g choice root)) ∧
      (threads = 1 → s.received = g.searchRoots choice)) ∧
    (∀ threads, 0 < threads → threads * (16 + 2 * VertexSet.bytes S) < 2 ^ 63 →
      (∀ schedule, ∃ s,
        Reachable (Root.search g choice) threads (.start g.roots threads) s ∧
        s.caller = .returned ∧
        (∀ (R : Type) [Reporter R] (r : R),
          (parallel choice threads).explore schedule g r =
            ⟨s.received.foldl Reporter.record r, .ok ()⟩) ∧
        ((parallel choice threads).explore schedule g
          ({} : CollectingReporter)).reporter.cliques.toList = s.received) ∧
      ∀ s, Reachable (Root.search g choice) threads (.start g.roots threads) s →
        s.caller = .returned →
        ∃ schedule, ∀ (R : Type) [Reporter R] (r : R),
          (parallel choice threads).explore schedule g r =
            ⟨s.received.foldl Reporter.record r, .ok ()⟩) ∧
    ∀ (schedule : Schedule) (R : Type) [Reporter R] (r : R),
      (parallel choice 0).explore schedule g r = ⟨r, .error .noWorkers⟩ ∧
      ∀ threads, 0 < threads → 2 ^ 63 ≤ threads * (16 + 2 * VertexSet.bytes S) →
        (parallel choice threads).explore schedule g r = ⟨r, .error .capacityOverflow⟩ := by
  have hnodup : (g.searchRoots choice).Nodup :=
    (g.enumerates_searchRoots choice).distinct.of_map
  have hsequential : ∀ schedule, (degeneracy choice).cliques schedule g =
      .ok (g.searchRoots choice) := fun _ => rfl
  refine ⟨fun schedule => ⟨fun R _ r => explore_eq_ok (hsequential schedule) r,
      toList_explore_collecting (hsequential schedule)⟩,
    fun threads hthreads s h hcaller => ?_,
    fun threads hthreads hroom => ⟨fun schedule => ?_, fun s h hcaller => ?_⟩,
    fun schedule R _ r => ⟨rfl, fun threads hthreads hroom => ?_⟩⟩
  · obtain ⟨hfinal, hjobs, hresults⟩ := h.isFinal hthreads hcaller
    have hperm := h.received_perm hthreads hcaller
    refine ⟨hfinal, hjobs, hresults, step_eq_none_of_isFinal hfinal, hperm, fun root hroot => ?_,
      h.received_eq hcaller⟩
    rw [filter_mem_of_sublist (h.sublist_received hthreads hcaller hroot)
      (hperm.nodup_iff.mpr hnodup)]
    have hsub : (Root.search g choice root).Sublist (g.searchRoots choice) :=
      List.sublist_flatten_of_mem (List.mem_map_of_mem hroot)
    exact (filter_mem_of_sublist hsub hnodup).symm
  · obtain ⟨s, h, hcaller, hprocess⟩ :=
      exists_process_eq hthreads (Root.search g choice) schedule g.roots
    have hcliques : (parallel choice threads).cliques schedule g = .ok s.received := by
      rw [cliques, g.searchParallel_of_fits choice hthreads hroom, hprocess]
    exact ⟨s, h, hcaller, fun R _ r => explore_eq_ok hcliques r, toList_explore_collecting hcliques⟩
  · obtain ⟨schedule, hprocess⟩ := h.exists_process_eq_received hthreads hcaller
    have hcliques : (parallel choice threads).cliques schedule g = .ok s.received := by
      rw [cliques, g.searchParallel_of_fits choice hthreads hroom, hprocess]
    exact ⟨schedule, fun R _ r => explore_eq_ok hcliques r⟩
  · have hlarge : ¬ Root.QueueFits S threads := not_lt.mpr hroom
    have hcliques : (parallel choice threads).cliques schedule g = .error .capacityOverflow :=
      g.searchParallel_of_not_fits choice hthreads hlarge schedule
    exact explore_eq_error hcliques r

/-- Two workers on the diamond give the reporter its two cliques, one worker in the order of the
sequential search. -/
theorem explore_parallel_diamond :
    (∀ threads ≤ 2, threads * (16 + 2 * VertexSet.bytes DenseSet) < 2 ^ 63) ∧
      (∃ s, Reachable (Root.search Graph.diamond .amongAll) 2 (.start Graph.diamond.roots 2) s ∧
        s.caller = .returned ∧ s.isFinal = true ∧
        ((parallel .amongAll 2).explore Schedule.first Graph.diamond
          ({} : CollectingReporter)).reporter.cliques.toList = s.received ∧
        s.received.Perm [[3, 1, 2], [2, 0, 1]]) ∧
      ((parallel .amongAll 1).explore Schedule.first Graph.diamond
        ({} : CollectingReporter)).reporter.cliques.toList = [[3, 1, 2], [2, 0, 1]] := by
  have hfits : ∀ threads ≤ 2, threads * (16 + 2 * VertexSet.bytes DenseSet) < 2 ^ 63 := by decide
  have hcliques : Graph.diamond.searchRoots .amongAll = [[3, 1, 2], [2, 0, 1]] := by
    decide +kernel
  obtain ⟨-, hall, hsome, -⟩ := explore_parallel Graph.diamond .amongAll
  rw [hcliques] at hall
  obtain ⟨s, h, hcaller, -, hcollected⟩ := (hsome 2 two_pos (hfits 2 le_rfl)).1 Schedule.first
  obtain ⟨hfinal, -, -, -, hperm, -, -⟩ := hall 2 two_pos s h hcaller
  obtain ⟨t, ht, htcaller, -, htcollected⟩ :=
    (hsome 1 one_pos (hfits 1 one_le_two)).1 Schedule.first
  obtain ⟨-, -, -, -, -, -, hsame⟩ := hall 1 one_pos t ht htcaller
  exact ⟨hfits, ⟨s, h, hcaller, hfinal, hcollected, hperm⟩,
    htcollected.trans (hsame rfl)⟩

end Algorithm
end MaximalCliques

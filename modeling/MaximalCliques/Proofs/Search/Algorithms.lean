import MaximalCliques.Proofs.Algorithm.Names
import MaximalCliques.Proofs.Search.Parallel
import MaximalCliques.Proofs.Search.Sequential

/-!
# All algorithms enumerate the maximal cliques

Whatever the algorithm and however the workers of its pool take turns, what it reports enumerates
the maximal cliques of two or more vertices. Only a pool without workers or without room for its
queues reports nothing. No algorithm with a pool of the first kind has a name, but there are names
for those of the second kind.
-/

namespace MaximalCliques
namespace Algorithm

def HasWorkers : Algorithm → Prop
  | parallel _ threads => 0 < threads
  | _ => True

def HasRoom (S : Type) [VertexSet S] : Algorithm → Prop
  | parallel _ threads => Root.QueueFits S threads
  | _ => True

/-- The algorithm has the workers that it asks for, and an array can hold their queues. -/
structure CanStart (S : Type) [VertexSet S] (a : Algorithm) : Prop where
  workers : a.HasWorkers
  room : a.HasRoom S

variable {S : Type} [VertexSet S]

/-- Of the algorithms that have a name, those can start whose queues have room. -/
theorem canStart_of_ofName {name : List Char} {a : Algorithm} (h : ofName name = .ok a)
    (hroom : ∀ choice threads, a = parallel choice threads → Root.QueueFits S threads) :
    a.CanStart S := by
  have hnameable : a.IsNameable := (ofName_eq_ok_iff.mp h).isNameable
  cases a with
  | parallel choice threads => exact ⟨hnameable.1, hroom choice threads rfl⟩
  | naive => exact ⟨trivial, trivial⟩
  | pivot choice => exact ⟨trivial, trivial⟩
  | degeneracy choice => exact ⟨trivial, trivial⟩

variable [LawfulVertexSet S]

theorem exists_cliques_eq_ok (g : Graph S) {a : Algorithm} (ha : a.CanStart S)
    (schedule : Pool.Schedule) :
    ∃ cs, a.cliques schedule g = .ok cs ∧ Enumerates cs g.IsMaximalClique := by
  by_cases hparallel : ∃ choice threads, a = parallel choice threads
  · obtain ⟨choice, threads, rfl⟩ := hparallel
    obtain ⟨s, h, hcaller, hprocess⟩ :=
      Pool.exists_process_eq ha.workers (Root.search g choice) schedule g.roots
    refine ⟨_, g.searchParallel_of_fits choice ha.workers ha.room schedule, ?_⟩
    rw [hprocess]
    exact (g.enumerates_searchRoots choice).perm (h.received_perm ha.workers hcaller)
  · push Not at hparallel
    obtain ⟨cs, hcs, henumerates⟩ := exists_cliques_of_ne_parallel g hparallel
    exact ⟨cs, hcs schedule, henumerates⟩

end Algorithm
end MaximalCliques

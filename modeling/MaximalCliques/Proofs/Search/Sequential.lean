import MaximalCliques.Algorithm.Explore
import MaximalCliques.Proofs.Search.Roots
import MaximalCliques.VertexSet.Indexed

/-!
# The sequential algorithms enumerate the maximal cliques

Seven algorithms search without a pool: one that branches on every candidate, and for each pivot
choice one that searches the whole graph and one that searches from roots. Each gives its reporter
every maximal clique of two or more vertices once, and nothing else.
-/

namespace MaximalCliques
namespace Algorithm

variable {S : Type} [VertexSet S] [LawfulVertexSet S]

theorem exists_cliques_of_ne_parallel (g : Graph S) {a : Algorithm}
    (ha : ∀ choice threads, a ≠ parallel choice threads) :
    ∃ cs, (∀ schedule, a.cliques schedule g = .ok cs) ∧ Enumerates cs g.IsMaximalClique := by
  cases a with
  | naive => exact ⟨_, fun _ => rfl, g.enumerates_searchWhole none⟩
  | pivot choice => exact ⟨_, fun _ => rfl, g.enumerates_searchWhole (some choice)⟩
  | degeneracy choice => exact ⟨_, fun _ => rfl, g.enumerates_searchRoots choice⟩
  | parallel choice threads => exact absurd rfl (ha choice threads)

/-- A sequential algorithm succeeds on every graph and gives any reporter the same list of cliques,
one after another; a reporter that collects them ends up with this list. Its members have two or more
distinct vertices and name the maximal cliques of two or more vertices one for one. -/
theorem explore_sequential (g : Graph S) (a : Algorithm)
    (ha : ∀ choice threads, a ≠ parallel choice threads) :
    ∃ cs : List Clique,
      (∀ (schedule : Pool.Schedule) (R : Type) [Reporter R] (r : R),
        a.explore schedule g r = ⟨cs.foldl Reporter.record r, .ok ()⟩) ∧
      (∀ schedule, (a.explore schedule g ({} : CollectingReporter)).reporter.cliques.toList = cs) ∧
      (∀ c ∈ cs, 2 ≤ c.length ∧ c.Nodup) ∧
      Set.BijOn (fun i : Fin cs.length => (cs.get i).toFinset) Set.univ {C | g.IsMaximalClique C} := by
  obtain ⟨cs, hcs, hall⟩ := exists_cliques_of_ne_parallel g ha
  have hlength : ∀ c ∈ cs, 2 ≤ c.length := by
    intro c hc
    rw [← hall.card_of_mem hc]
    exact (hall.of_mem hc).1
  exact ⟨cs, fun schedule R _ r => explore_eq_ok (hcs schedule) r,
    fun schedule => toList_explore_collecting (hcs schedule),
    fun c hc => ⟨hlength c hc, hall.nodup c hc⟩, hall.bijOn⟩

/-- Both representations of the diamond, searched from roots with pivots from all vertices. -/
theorem explore_sequential_diamond :
    (∀ choice threads, degeneracy .amongAll ≠ parallel choice threads) ∧
      (∀ schedule, ((degeneracy .amongAll).explore schedule Graph.diamond
        ({} : CollectingReporter)).reporter.cliques.toList = [[3, 1, 2], [2, 0, 1]]) ∧
      ∃ cs : List Clique,
        (∀ schedule, ((degeneracy .amongAll).explore schedule
          (Graph.diamond.convert : Graph IndexedSet)
          ({} : CollectingReporter)).reporter.cliques.toList = cs) ∧
        Set.BijOn (fun i : Fin cs.length => (cs.get i).toFinset) Set.univ
          {C | (Graph.diamond.convert : Graph IndexedSet).IsMaximalClique C} := by
  have hne : ∀ choice threads, degeneracy .amongAll ≠ parallel choice threads := nofun
  obtain ⟨cs, -, hcollected, -⟩ := explore_sequential Graph.diamond _ hne
  obtain ⟨cs', -, hcollected', -, hbij⟩ :=
    explore_sequential (Graph.diamond.convert : Graph IndexedSet) _ hne
  have hcliques : cs = [[3, 1, 2], [2, 0, 1]] := by
    rw [← hcollected .first]
    decide +kernel
  exact ⟨hne, hcliques ▸ hcollected, cs', hcollected', hbij⟩

/-- The vertex without neighbours is in no clique. -/
example : Graph.diamond.searchRoots .amongAll = [[3, 1, 2], [2, 0, 1]] := by decide +kernel

end Algorithm
end MaximalCliques

import MaximalCliques.Algorithm.Basic
import MaximalCliques.Pool.Run
import MaximalCliques.Reporter
import MaximalCliques.Search.Roots

/-!
# Exploring a graph

An algorithm explores a graph by giving every maximal clique of two or more vertices to a reporter.
A schedule stands for the interleaving of the workers; only parallel algorithms depend on it, and
only in the order of the cliques. The system is taken to give every thread that is asked for, and
memory up to the bound on arrays.
-/

namespace MaximalCliques

/-- Are there arrays for the two queues of a pool? A job is a vertex with two sets, and each place in
a queue has a stamp; a clique takes less. -/
def Root.QueueFits (S : Type) [VertexSet S] (threads : Nat) : Prop :=
  threads * (16 + 2 * VertexSet.bytes S) < byteBound

instance (S : Type) [VertexSet S] (threads : Nat) : Decidable (Root.QueueFits S threads) :=
  inferInstanceAs (Decidable (_ < _))

variable {S : Type} [VertexSet S]

/-- The cliques that the caller of a pool receives when the searches of all roots are its jobs. -/
def Graph.searchParallel (g : Graph S) (choice : PivotChoice) (threads : Nat)
    (schedule : Pool.Schedule) : Except Error (List Clique) :=
  if threads = 0 then .error .noWorkers
  else if Root.QueueFits S threads then
    .ok (Pool.process (Root.search g choice) threads schedule g.roots)
  else .error .capacityOverflow

namespace Algorithm

def cliques (schedule : Pool.Schedule) (g : Graph S) : Algorithm → Except Error (List Clique)
  | naive => .ok (g.searchWhole none)
  | pivot choice => .ok (g.searchWhole (some choice))
  | degeneracy choice => .ok (g.searchRoots choice)
  | parallel choice threads => g.searchParallel choice threads schedule

/-- A reporter after an exploration, and whether it succeeded. -/
structure Exploration (R : Type) where
  reporter : R
  outcome : Except Error Unit

/-- Give all cliques to the reporter. An algorithm that cannot start gives it nothing. -/
def explore {R : Type} [Reporter R] (a : Algorithm) (schedule : Pool.Schedule) (g : Graph S)
    (reporter : R) : Exploration R :=
  match a.cliques schedule g with
  | .ok cs => ⟨Reporter.recordAll reporter cs, .ok ()⟩
  | .error e => ⟨reporter, .error e⟩

variable {a : Algorithm} {schedule : Pool.Schedule} {g : Graph S} {cs : List Clique}

theorem explore_eq_ok (h : a.cliques schedule g = .ok cs) {R : Type} [Reporter R] (reporter : R) :
    a.explore schedule g reporter = ⟨cs.foldl Reporter.record reporter, .ok ()⟩ := by
  unfold explore
  rw [h]
  rfl

theorem explore_eq_error {e : Error} (h : a.cliques schedule g = .error e) {R : Type} [Reporter R]
    (reporter : R) : a.explore schedule g reporter = ⟨reporter, .error e⟩ := by
  unfold explore
  rw [h]

theorem toList_explore_collecting (h : a.cliques schedule g = .ok cs) :
    (a.explore schedule g ({} : CollectingReporter)).reporter.cliques.toList = cs := by
  rw [explore_eq_ok h]
  exact Reporter.toList_recordAll_collecting {} cs

end Algorithm
end MaximalCliques

import MaximalCliques.Search.Pivot

/-!
# Search algorithms

All algorithms find the same cliques. They differ in where searches start, in how frames choose
their pivot and in who performs the searches.
-/

namespace MaximalCliques

inductive Algorithm where
  /-- One search over the whole graph that branches on every candidate. -/
  | naive
  /-- One search over the whole graph. -/
  | pivot (choice : PivotChoice)
  /-- One search per root, in degeneracy order. -/
  | degeneracy (choice : PivotChoice)
  /-- One search per root, spread over a pool of workers. -/
  | parallel (choice : PivotChoice) (threads : Nat)
  deriving DecidableEq, Repr

namespace Algorithm

/-- Pool sizes that are compared unless others are asked for. -/
def defaultThreads : List Nat := [1, 4, 16, 64, 256]

/-- Every algorithm, the parallel ones once per pool size. -/
def comparisonSet (threads : List Nat) : List Algorithm :=
  naive :: (PivotChoice.all.map pivot ++ PivotChoice.all.map degeneracy ++
    threads.flatMap fun n => PivotChoice.all.map fun p => parallel p n)

end Algorithm
end MaximalCliques

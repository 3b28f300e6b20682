import MaximalCliques.Algorithm.Explore
import MaximalCliques.Benchmark.Options
import MaximalCliques.Benchmark.Table
import MaximalCliques.BinaryRecord
import MaximalCliques.Clique.Canonical
import MaximalCliques.Clique.Verification
import MaximalCliques.Random.Graph

/-!
# Comparing algorithms on random graphs

The program `bench` draws one random graph per size, all from one random source, and lets every
algorithm explore it several times. The first round collects the cliques and compares them with
those of the first algorithm, which are verified; later rounds only count.
-/

namespace MaximalCliques
namespace Benchmark

variable {m : Type → Type} [Monad m] {F : Type} (host : Host m F)
variable {S : Type} [VertexSet S] [LawfulVertexSet S]

def timed {R : Type} [Reporter R] (schedule : Pool.Schedule) (g : Graph S) (reporter : R)
    (a : Algorithm) : ExceptT Error m (R × Float) := do
  let (exploration, seconds) ← host.time fun _ => a.explore schedule g reporter
  match exploration.outcome with
  | .ok () => return (exploration.reporter, seconds)
  | .error e => throw e

/-- Compare the canonical cliques of an algorithm with those expected, or verify them if there are
none. -/
def crossCheck (g : Graph S) (a : Algorithm) (cliques : List Clique) :
    Option (Algorithm × List Clique) → ExceptT Error m Unit
  | some (first, expected) =>
    if expected = cliques then pure ()
    else host.warn
      (String.ofList a.name ++ s!" found {cliques.length} cliques, " ++
        String.ofList first.name ++ s!" found {expected.length}")
  | none =>
    match g.verify cliques with
    | .error (.violation v) =>
      host.warn (String.ofList a.name ++ " reported a bad clique: " ++ v.message)
    | _ => pure ()

/-- The first round collects and compares; it starts the statistics of each algorithm. -/
def firstRound (schedule : Pool.Schedule) (g : Graph S) :
    Option (Algorithm × List Clique) → List Algorithm →
      ExceptT Error m (List (Algorithm × SampleStatistics Float))
  | _, [] => return []
  | expected, a :: as => do
    let (reporter, seconds) ← timed host schedule g ({} : CollectingReporter) a
    let cliques := Clique.canonical reporter.cliques.toList
    crossCheck host g a cliques expected
    let rest ← firstRound schedule g (some (expected.getD (a, cliques))) as
    return (a, SampleStatistics.empty.put seconds) :: rest

/-- Later rounds count, and add one sample to the statistics of each algorithm. -/
def laterRounds (schedule : Pool.Schedule) (g : Graph S) :
    Nat → List (Algorithm × SampleStatistics Float) →
      ExceptT Error m (List (Algorithm × SampleStatistics Float))
  | 0, times => return times
  | rounds + 1, times => do
    let times ← times.mapM fun (a, statistics) => do
      let (_, seconds) ← timed host schedule g ({} : CountingReporter) a
      return (a, statistics.put seconds)
    laterRounds schedule g rounds times

def savedName (directory : List Char) (order size : Nat) (seed : UInt64) : List Char :=
  directory ++ "/random-".toList ++ Numeral.write order ++ '-' :: Numeral.write size ++
    '-' :: Numeral.write seed.toNat

def save (o : Options) (size : Nat) (g : Graph S) : ExceptT Error m Unit := do
  match o.directory with
  | none => return ()
  | some directory =>
    let name := savedName directory o.order size o.seed
    host.write (name ++ ".txt".toList) (EdgeList.encode g.toEdgeList)
    host.write (name ++ ".bin".toList) g.toRecord

def compare (schedule : Pool.Schedule) (o : Options) (size : Nat) (g : Graph S) :
    ExceptT Error m (List Row) := do
  let times ← firstRound host schedule g none o.compared
  let times ← laterRounds host schedule g (o.samples - 1) times
  let rows := times.map fun (a, statistics) => ⟨o.order, size, a, statistics⟩
  rows.forM host.print
  return rows

variable (S) in
def overSize {σ : Type} [WordSource σ] (schedule : Pool.Schedule) (o : Options) (size : Nat)
    (source : σ) : ExceptT Error m (List Row × σ) := do
  match (Graph.random ampleFuel o.order size source : Option (Except Error (Graph S) × σ)) with
  | none => throw .noGraph
  | some (.error e, _) => throw e
  | some (.ok g, source) =>
    save host o size g
    return (← compare host schedule o size g, source)

variable (S) in
/-- Compare the algorithms on a random graph of each size. The graphs come from one source in turn,
and a line for each goes to the table. -/
def overSizes {σ : Type} [WordSource σ] (schedule : Pool.Schedule) (o : Options) :
    List Nat → σ → Option (Table F) → ExceptT Error m Unit
  | [], _, table => discard (table.mapM (Table.flush host))
  | size :: sizes, source, table => do
    let (rows, source) ← Table.guarding host table (overSize host S schedule o size source)
    let table ← table.mapM fun t => do (← t.add host (tableRow size rows)).flush host
    overSizes schedule o sizes source table

def run (schedule : Pool.Schedule) (o : Options) : ExceptT Error m Unit := do
  if o.samples = 0 then throw .noSamples
  match o.directory with
  | none => pure ()
  | some directory => host.makeDirectories directory
  let table ← o.table.mapM fun name => do
    (← Table.create host name).add host (tableHeader o.compared)
  overSizes host o.representation.Carrier schedule o o.sizes (Xoshiro.ofSeed o.seed) table

end Benchmark
end MaximalCliques

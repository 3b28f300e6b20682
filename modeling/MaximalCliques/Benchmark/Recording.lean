import MaximalCliques.Benchmark.Run
import MaximalCliques.CommandLine.FileStore

/-!
# A recorded benchmark

A recording is what a run of the program leaves behind: the files, the rows and the warnings. As a
host it performs everything on these values, and no time passes.
-/

namespace MaximalCliques
namespace Benchmark

structure Recording where
  store : FileStore
  rows : List Row
  warnings : List String

namespace Recording

def onStore {α : Type} (change : FileStore → Except FileFault (FileStore × α)) :
    ExceptT Error (StateM Recording) α :=
  ExceptT.mk fun r =>
    match change r.store with
    | .ok (store, a) => (.ok a, { r with store })
    | .error fault => (.error (.file fault), r)

def host : Host (StateM Recording) OpenFile where
  makeDirectories name := onStore fun s => (s.makeDirectories name).map (·, ())
  write name bytes := onStore fun s => (s.write name bytes).map (·, ())
  create name := onStore (·.create name)
  writeTo file bytes := onStore fun s => .ok (s.writeTo file bytes)
  print row := modify fun r => { r with rows := r.rows ++ [row] }
  warn message := modify fun r => { r with warnings := r.warnings ++ [message] }
  time value := pure (value (), 0)

/-- Run the program among the given files: how it ended, and what it left behind. -/
def run (schedule : Pool.Schedule) (o : Options) (store : FileStore) :
    Except Error Unit × Recording :=
  ((Benchmark.run host schedule o).run ⟨store, [], []⟩)

end Recording
end Benchmark
end MaximalCliques

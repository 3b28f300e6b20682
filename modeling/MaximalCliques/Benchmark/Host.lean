import MaximalCliques.Benchmark.Row
import MaximalCliques.Error

/-!
# The surroundings of a benchmark

A host offers files, lines of output and a clock. A file can be written at once, or bit by bit while
it stays open.
-/

namespace MaximalCliques
namespace Benchmark

/-- What the program asks of its surroundings; `F` are the open files. -/
structure Host (m : Type → Type) (F : Type) where
  makeDirectories : List Char → ExceptT Error m Unit
  write : List Char → List UInt8 → ExceptT Error m Unit
  /-- Make an empty file, or empty the one that there is, and keep it open. -/
  create : List Char → ExceptT Error m F
  /-- Write bytes to an open file, behind those that were written to it before. -/
  writeTo : F → List UInt8 → ExceptT Error m F
  print : Row → ExceptT Error m Unit
  /-- Tell that algorithms disagree or that a clique is wrong. -/
  warn : String → ExceptT Error m Unit
  /-- Compute a value and tell how many seconds it took. -/
  time : {α : Type} → (Unit → α) → ExceptT Error m (α × Float)

end Benchmark
end MaximalCliques

import MaximalCliques.Benchmark.Host
import MaximalCliques.EdgeList

/-!
# Tables under way

The table of a benchmark grows line by line in a file that stays open. Lines wait until they are
called for, or until they fill a portion and more is to come. Then they are written behind those
written before, whatever else has happened to the file.
-/

namespace MaximalCliques
namespace Benchmark

structure Table (F : Type) where
  file : F
  /-- The bytes that wait, at most a portion of them. -/
  waiting : List UInt8

namespace Table

/-- As many bytes may wait. -/
def portion : Nat := 8192

/-- How many of `n` bytes do not wait: full portions that more bytes follow. -/
def ready (n : Nat) : Nat := (n - 1) / portion * portion

variable {m : Type → Type} [Monad m] {F : Type} (host : Host m F)

def create (name : List Char) : ExceptT Error m (Table F) := do
  return ⟨← host.create name, []⟩

def add (t : Table F) (line : List Char) : ExceptT Error m (Table F) := do
  let bytes := t.waiting ++ EdgeList.encode line
  let n := ready bytes.length
  return ⟨← host.writeTo t.file (bytes.take n), bytes.drop n⟩

def flush (t : Table F) : ExceptT Error m (Table F) := do
  return ⟨← host.writeTo t.file t.waiting, []⟩

/-- Perform an action while a table may be under way. If it fails, what waits is still written. -/
def guarding {α : Type} (table : Option (Table F)) (action : ExceptT Error m α) :
    ExceptT Error m α :=
  ExceptT.mk do
    match ← action.run with
    | .ok a => return .ok a
    | .error e =>
      let _ ← (table.mapM (flush host)).run
      return .error e

end Table
end Benchmark
end MaximalCliques

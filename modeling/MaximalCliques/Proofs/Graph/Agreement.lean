import MaximalCliques.BinaryRecord
import MaximalCliques.EdgeList
import MaximalCliques.Proofs.Graph.Building

/-!
# Representations of vertex sets agree

Reading a graph looks at its bytes and at the edges that they stand for, never at the order of a
row. So over two representations it fails with the same error, or gives graphs with the same
adjacency.
-/

namespace MaximalCliques.Graph

open VertexSet LawfulVertexSet

variable {S T : Type} [VertexSet S] [VertexSet T]

/-- The results of reading a graph twice are the same error or graphs with the same adjacency. -/
inductive Alike : Except Error (Graph S) → Except Error (Graph T) → Prop
  | error (e : Error) : Alike (.error e) (.error e)
  | ok {g : Graph S} {h : Graph T} (hadj : g.adjacency = h.adjacency) : Alike (.ok g) (.ok h)

theorem Alike.bind {α : Type} (x : Except Error α) {f : α → Except Error (Graph S)}
    {f' : α → Except Error (Graph T)} (h : ∀ a, Alike (f a) (f' a)) :
    Alike (x >>= f) (x >>= f') := by
  cases x with
  | error e => exact .error e
  | ok a => exact h a

theorem Alike.bind_eq {β : Type} {x : Except Error (Graph S)} {y : Except Error (Graph T)}
    (hxy : Alike x y) {f : Graph S → Except Error β} {f' : Graph T → Except Error β}
    (h : ∀ g g', g.adjacency = g'.adjacency → f g = f' g') : x >>= f = y >>= f' := by
  cases hxy with
  | error e => rfl
  | ok hadj => exact h _ _ hadj

theorem isMaximalClique_congr {g : Graph S} {h : Graph T} (hadj : g.adjacency = h.adjacency)
    (C : Finset ℕ) : g.IsMaximalClique C ↔ h.IsMaximalClique C := by
  rw [IsMaximalClique, IsMaximalClique, hadj]

variable (S T) [LawfulVertexSet S] [LawfulVertexSet T]

theorem alike_ofEdges (order : ℕ) (edges : List Edge) :
    Alike (ofEdges order edges : Except Error (Graph S))
      (ofEdges order edges : Except Error (Graph T)) := by
  cases hfault : edges.findSome? (edgeFault? order) with
  | some fault =>
    rw [ofEdges_of_fault hfault, ofEdges_of_fault hfault]
    exact .error fault
  | none =>
    obtain ⟨g, hg, -, hrows⟩ := exists_ofEdges (S := S) hfault
    obtain ⟨h, hh, -, hrows'⟩ := exists_ofEdges (S := T) hfault
    rw [hg, hh]
    refine .ok ?_
    ext v w
    rw [adj_iff, adj_iff, hrows, hrows', mem_ofList, mem_ofList]

theorem alike_ofEdgeList {bytes : List UInt8}
    (hfits : ∀ lines, EdgeList.read bytes = .ok lines →
      Table.Fits S (EdgeList.order lines) ∧ Table.Fits T (EdgeList.order lines)) :
    Alike (ofEdgeList bytes : Except Error (Graph S))
      (ofEdgeList bytes : Except Error (Graph T)) := by
  unfold ofEdgeList
  cases hread : EdgeList.read bytes with
  | error e => exact .error e
  | ok lines =>
    obtain ⟨hS, hT⟩ := hfits lines hread
    change Alike (ofLines lines) (ofLines lines)
    rw [ofLines, ofLines, if_pos hS, if_pos hT]
    exact alike_ofEdges S T _ _

theorem alike_ofRecord (bytes : List UInt8) :
    Alike (ofRecord bytes : Except Error (Graph S)) (ofRecord bytes : Except Error (Graph T)) :=
  .bind _ fun _ => alike_ofEdges S T _ _

end MaximalCliques.Graph

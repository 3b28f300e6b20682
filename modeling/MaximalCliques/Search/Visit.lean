import MaximalCliques.Search.Frame

/-!
# Visiting frames

A visit performs the steps of a frame, depth first, with the current clique as a stack: descending
pushes a vertex and takes it off again. Every frame has fewer candidates than the one above it, so
the number of candidates bounds the depth.
-/

namespace MaximalCliques

open VertexSet

/-- What a visit leaves behind: the cliques reported, in order, and the stack. -/
structure Visit where
  reported : List Clique
  stack : List Nat
  deriving DecidableEq, Repr

variable {S : Type} [VertexSet S]

/-- Perform the steps that `expand` gives for a frame, at most `depth` frames deep. -/
def Visit.run (expand : Frame S → List (Step S)) : Nat → Frame S → List Nat → Visit
  | 0, _, stack => ⟨[], stack⟩
  | depth + 1, frame, stack =>
    (expand frame).foldl
      (fun visit step =>
        match step with
        | .report v => ⟨visit.reported ++ [visit.stack ++ [v]], visit.stack⟩
        | .descend v sub =>
          let inner := run expand depth sub (visit.stack ++ [v])
          ⟨visit.reported ++ inner.reported, inner.stack.dropLast⟩)
      ⟨[], stack⟩

namespace Graph

/-- Report every maximal clique that consists of the stack and candidates of the frame and that no
excluded vertex extends. -/
def visit (g : Graph S) (choice : Option PivotChoice) (frame : Frame S) (stack : List Nat) : Visit :=
  Visit.run (Frame.steps g choice) (VertexSet.size frame.candidates) frame stack

def searchWhole (g : Graph S) (choice : Option PivotChoice) : List Clique :=
  let candidates := g.connectedVertices
  if isEmpty candidates then []
  else (g.visit choice ⟨candidates, withCapacity g.order⟩ []).reported

end Graph
end MaximalCliques

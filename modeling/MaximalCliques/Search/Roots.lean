import MaximalCliques.Graph.Degeneracy
import MaximalCliques.Search.Visit

/-!
# Roots of the search

Every clique is found from its first vertex in degeneracy order. That vertex is its root: the
neighbours that come later are the candidates, those that came earlier are excluded. A vertex
without later neighbours is no root.
-/

namespace MaximalCliques

open VertexSet

structure Root (S : Type) where
  vertex : Nat
  frame : Frame S

namespace Root

variable {S : Type} [VertexSet S]

/-- The roots among the listed vertices, in order; every vertex is excluded for those after it. -/
def among (g : Graph S) : List Nat → S → List (Root S)
  | [], _ => []
  | v :: vs, excluded =>
    let neighbours := g.neighbours v
    let earlier := intersection neighbours excluded
    let rest := among g vs (insert excluded v).set
    if size earlier < size neighbours then
      ⟨v, difference neighbours earlier, earlier⟩ :: rest
    else rest

/-- The cliques found from a root, in the order in which its search reports them. -/
def search (g : Graph S) (choice : PivotChoice) (root : Root S) : List Clique :=
  (g.visit (some choice) root.frame [root.vertex]).reported

end Root

namespace Graph

variable {S : Type} [VertexSet S]

def roots (g : Graph S) : List (Root S) := Root.among g g.degeneracyOrder (withCapacity g.order)

def searchRoots (g : Graph S) (choice : PivotChoice) : List Clique :=
  g.roots.flatMap (Root.search g choice)

end Graph
end MaximalCliques

import MaximalCliques.Graph.Table

/-!
# Simple undirected graphs

A graph is a table of neighbours that keeps the rules; nothing changes it afterwards. It is built
from a table, from a list of edges, or from a graph over another representation of vertex sets.
-/

namespace MaximalCliques

open VertexSet

structure Graph (S : Type) [VertexSet S] extends Table S where
  valid : toTable.Valid

namespace Graph

section Queries

variable {S : Type} [VertexSet S]

def neighbours (g : Graph S) (v : Nat) : S := g.row v

def degree (g : Graph S) (v : Nat) : Nat := size (g.neighbours v)

def size (g : Graph S) : Nat := g.degreeSum / 2

def maxDegree (g : Graph S) : Nat := g.degrees.max?.getD 0

def vertices (g : Graph S) : List Nat := List.range g.order

def connectedVertices (g : Graph S) : S := ofList (g.vertices.filter fun v => 0 < g.degree v)

/-- The lowest vertex of greatest degree. -/
def maxDegreeVertex (g : Graph S) : Except Error Nat :=
  if g.maxDegree = 0 then .error .noEdges
  else
    match g.vertices.find? fun v => g.degree v == g.maxDegree with
    | none => .error .noEdges
    | some v => .ok v

/-- Every edge once, the higher vertex first, ordered by it and then by its row. -/
def edges (g : Graph S) : List Edge :=
  g.vertices.flatMap fun v => ((toList (g.neighbours v)).filter (· < v)).map fun w => (v, w)

end Queries

variable {S : Type} [VertexSet S] [LawfulVertexSet S]

/-- The graph of a table. The first fault of the first faulty row is the error; the sum of the
degrees is checked as well. -/
def ofTable (t : Table S) : Except Error (Graph S) :=
  match h : t.fault? with
  | some fault => .error fault
  | none =>
    if t.degreeSum % 2 = 1 then .error (.oddDegreeSum t.degreeSum)
    else .ok ⟨t, t.fault?_eq_none_iff.1 h⟩

/-- The graph of `order` vertices with the listed edges, in which repeats collapse. The first edge
that cannot be added is the error. -/
def ofEdges (order : Nat) (edges : List Edge) : Except Error (Graph S) := do
  ofTable (← Table.ofEdges order edges)

variable {T : Type} [VertexSet T] [LawfulVertexSet T]

theorem mem_row_map (t : Table S) (v w : Nat) :
    w ∈ toList ((⟨t.rows.map fun s => ofList (toList s)⟩ : Table T).row v) ↔
      w ∈ toList (t.row v) := by
  simp only [Table.row, Array.getD_eq_getD_getElem?, Array.getElem?_map]
  cases t.rows[v]? <;> simp [mem_ofList, LawfulVertexSet.toList_empty]

def convert (g : Graph S) : Graph T where
  rows := g.rows.map fun s => ofList (toList s)
  valid := by
    refine ⟨fun v => ?_, fun v w => ?_, fun v w => ?_⟩
    · rw [mem_row_map]
      exact g.valid.loopless v
    · rw [mem_row_map]
      simpa [Table.order] using g.valid.inRange v w
    · rw [mem_row_map, mem_row_map]
      exact g.valid.symmetric v w

end Graph
end MaximalCliques

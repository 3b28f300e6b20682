import MaximalCliques.EdgeList.Line
import MaximalCliques.Graph

/-!
# Edge lists

An edge list is a text of lines that describes a graph. Its lines are read one after another, and
the first that cannot be read is the error, with its number counted from one; the graph is built
only after that. The order of the graph is the greatest that a line asks for, and a header may ask
for more vertices than there is an array for.
-/

namespace MaximalCliques
namespace EdgeList

/-- The lines of a file, without the line feeds that end them. -/
def splitLines (bytes : List UInt8) : List (List UInt8) := bytes.splitOn 10

def decode? (bytes : List UInt8) : Option (List Char) :=
  (ByteArray.utf8Decode? ⟨bytes.toArray⟩).map Array.toList

def encode (text : List Char) : List UInt8 := (String.ofList text).toUTF8.data.toList

def readLine (bytes : List UInt8) (number : Nat) : Except Error Line :=
  match decode? bytes with
  | none => .error .invalidText
  | some text =>
    match Line.read text with
    | .ok line => .ok line
    | .error fault => .error (.badLine number fault)

def read (bytes : List UInt8) : Except Error (List Line) :=
  ((splitLines bytes).zipIdx 1).mapM fun (line, number) => readLine line number

/-- The greatest order that a line asks for. -/
def order (lines : List Line) : Nat := (lines.map Line.order).max?.getD 0

def edges (lines : List Line) : List Edge := lines.filterMap Line.edge?

/-- The line of an edge, the lower vertex first. -/
def writeEdge (e : Edge) : List Char := Numeral.write e.2 ++ ' ' :: Numeral.write e.1 ++ ['\n']

def writeHeader (order : Nat) : List Char :=
  ['#', ' '] ++ Line.headerWord ++ ' ' :: Numeral.write order ++ ['\n']

end EdgeList

namespace Graph

section Reading

variable {S : Type} [VertexSet S] [LawfulVertexSet S]

/-- The graph that lines describe, if its table fits. -/
def ofLines (lines : List EdgeList.Line) : Except Error (Graph S) :=
  if Table.Fits S (EdgeList.order lines) then
    ofEdges (EdgeList.order lines) (EdgeList.edges lines)
  else .error .capacityOverflow

def ofEdgeList (bytes : List UInt8) : Except Error (Graph S) := do
  ofLines (← EdgeList.read bytes)

end Reading

/-- A header with the order, then a line for every edge. -/
def toEdgeList {S : Type} [VertexSet S] (g : Graph S) : List Char :=
  EdgeList.writeHeader g.order ++ g.edges.flatMap EdgeList.writeEdge

end Graph
end MaximalCliques

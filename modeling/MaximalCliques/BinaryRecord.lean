import MaximalCliques.Graph

/-!
# Binary records of graphs

A record holds the order and the number of edges in eight bytes each and then four bytes for each
vertex of each edge; the lowest byte of a number comes first. Bytes after the last edge are not
looked at, and fewer bytes than the number of edges calls for are an error. That the table of the
order fits is taken for granted.
-/

namespace MaximalCliques
namespace BinaryRecord

/-- The lowest `width` bytes of a number, lowest first. -/
def encodeNat : Nat → Nat → List UInt8
  | 0, _ => []
  | width + 1, n => UInt8.ofNat n :: encodeNat width (n / 256)

def decodeNat : List UInt8 → Nat
  | [] => 0
  | b :: bs => b.toNat + 256 * decodeNat bs

def encodeEdge (e : Edge) : List UInt8 := encodeNat 4 e.1 ++ encodeNat 4 e.2

def encode (order : Nat) (edges : List Edge) : List UInt8 :=
  encodeNat 8 order ++ encodeNat 8 edges.length ++ edges.flatMap encodeEdge

def decodeEdges : Nat → List UInt8 → List Edge
  | 0, _ => []
  | count + 1, bytes =>
    (decodeNat (bytes.take 4), decodeNat ((bytes.drop 4).take 4)) ::
      decodeEdges count (bytes.drop 8)

def decode (bytes : List UInt8) : Except Error (Nat × List Edge) :=
  let count := decodeNat ((bytes.drop 8).take 8)
  if bytes.length < 16 ∨ bytes.length < 16 + 8 * count then .error .truncatedRecord
  else .ok (decodeNat (bytes.take 8), decodeEdges count (bytes.drop 16))

end BinaryRecord

namespace Graph

def toRecord {S : Type} [VertexSet S] (g : Graph S) : List UInt8 :=
  BinaryRecord.encode g.order g.edges

def ofRecord {S : Type} [VertexSet S] [LawfulVertexSet S] (bytes : List UInt8) :
    Except Error (Graph S) := do
  let (order, edges) ← BinaryRecord.decode bytes
  ofEdges order edges

end Graph
end MaximalCliques

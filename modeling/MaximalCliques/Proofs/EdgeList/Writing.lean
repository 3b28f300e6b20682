import MaximalCliques.Proofs.EdgeList.Reading

/-!
# Written edge lists are read back

The lines of a written edge list are its header and one line for every edge, and reading a line
gives what it was written for. So the order and the edges of the list are those that were written,
with the vertices of each edge the other way round.
-/

namespace MaximalCliques
namespace EdgeList

/-! ## Reading a written line -/

def edgeLine (e : Edge) : List Char := Numeral.write e.2 ++ ' ' :: Numeral.write e.1

def headerLine (order : ℕ) : List Char :=
  ['#', ' '] ++ Line.headerWord ++ ' ' :: Numeral.write order

theorem read_edgeLine {e : Edge} (hfst : e.1 < vertexBound) (hsnd : e.2 < vertexBound) :
    Line.read (edgeLine e) = .ok (.edge e.2 e.1) := by
  have hline : edgeLine e = Spacing.single.line (Numeral.write e.2) (Numeral.write e.1) := by
    simp [edgeLine, Spacing.single, Spacing.line]
  rw [hline]
  exact Line.read_line _ (Numeral.denotes_write _) hsnd (Numeral.denotes_write _) hfst

theorem read_headerLine {order : ℕ} (h : order < countBound) :
    Line.read (headerLine order) = .ok (.header order) := by
  have hheader := Line.Says.header isGap_nil isGap_space isGap_space isGap_nil
    (Numeral.denotes_write order) h
  apply Line.Says.read_eq
  simpa [headerLine] using hheader

theorem read_nil : Line.read [] = .ok .blank := rfl

/-! ## Reading a written list -/

/-- What is read from the edge list of a graph. -/
def writtenLines {S : Type} [VertexSet S] (g : Graph S) : List Line :=
  .header g.order :: g.edges.map (fun e => .edge e.2 e.1) ++ [.blank]

theorem toEdgeList_eq_flatMap {S : Type} [VertexSet S] (g : Graph S) :
    g.toEdgeList = (headerLine g.order :: g.edges.map edgeLine).flatMap (· ++ ['\n']) := by
  rw [Graph.toEdgeList, List.flatMap_cons, List.flatMap_map]
  rfl

theorem read_encode_eq_ok {text : List Char} {lines : List Line}
    (h : (text.splitOn '\n').map Line.read = lines.map Except.ok) :
    read (encode text) = .ok lines := by
  have hread : List.Forall₂ (· = ·) ((text.splitOn '\n').map Line.read) (lines.map .ok) :=
    List.forall₂_eq_eq_eq ▸ h
  have hlines : List.Forall₂ Line.Says (text.splitOn '\n') lines := by
    simpa only [List.forall₂_map_left_iff, List.forall₂_map_right_iff, Line.read_eq_ok_iff]
      using hread
  rw [read_eq_readFrom, splitLines_encode]
  exact readFrom_encode_eq_ok_iff.mpr hlines

theorem lineFeed_not_mem_write (n : ℕ) : '\n' ∉ Numeral.write n := fun h =>
  absurd ((isWord_of_denotes (Numeral.denotes_write n)).solid _ h) (by decide)

theorem read_encode_toEdgeList {S : Type} [VertexSet S] {g : Graph S}
    (horder : g.order < countBound)
    (hedges : ∀ e ∈ g.edges, e.1 < vertexBound ∧ e.2 < vertexBound) :
    read (encode g.toEdgeList) = .ok (writtenLines g) := by
  have hfeed : ∀ line ∈ headerLine g.order :: g.edges.map edgeLine, '\n' ∉ line := by
    rw [List.forall_mem_cons, List.forall_mem_map]
    constructor
    · simp [headerLine, Line.headerWord, lineFeed_not_mem_write]
    · exact fun e _ => by simp [edgeLine, lineFeed_not_mem_write]
  apply read_encode_eq_ok
  rw [toEdgeList_eq_flatMap, splitOn_flatMap_lineFeed hfeed]
  simp only [writtenLines, List.cons_append, List.map_cons, List.map_append, List.map_map,
    List.map_nil, read_headerLine horder, read_nil]
  congr 2
  exact List.map_congr_left fun e he => read_edgeLine (hedges e he).1 (hedges e he).2

end EdgeList
end MaximalCliques

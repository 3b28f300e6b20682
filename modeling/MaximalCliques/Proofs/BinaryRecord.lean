import Mathlib.Algebra.Group.Nat.Defs
import Mathlib.Data.List.Basic
import MaximalCliques.BinaryRecord

/-!
# Binary records are read back

A number that fits into its bytes is read back from them, and so are the order and the edges of a
record, whatever bytes follow the last edge.
-/

namespace MaximalCliques
namespace BinaryRecord

theorem length_encodeNat (width n : ℕ) : (encodeNat width n).length = width := by
  induction width generalizing n with
  | zero => rfl
  | succ width ih => rw [encodeNat, List.length_cons, ih]

theorem decodeNat_encodeNat {width n : ℕ} (h : n < 256 ^ width) :
    decodeNat (encodeNat width n) = n := by
  induction width generalizing n with
  | zero =>
    rw [encodeNat, decodeNat]
    omega
  | succ width ih =>
    have hrest : n / 256 < 256 ^ width := by
      rw [Nat.div_lt_iff_lt_mul (by decide)]
      exact h
    rw [encodeNat, decodeNat, ih hrest, UInt8.toNat_ofNat']
    exact Nat.mod_add_div n 256

theorem length_encodeEdge (e : Edge) : (encodeEdge e).length = 8 := by
  rw [encodeEdge, List.length_append, length_encodeNat, length_encodeNat]

theorem length_flatMap_encodeEdge (edges : List Edge) :
    (edges.flatMap encodeEdge).length = 8 * edges.length := by
  induction edges with
  | nil => rfl
  | cons e edges ih =>
    rw [List.flatMap_cons, List.length_append, length_encodeEdge, ih, List.length_cons]
    omega

theorem length_encode (order : ℕ) (edges : List Edge) :
    (encode order edges).length = 16 + 8 * edges.length := by
  simp only [encode, List.length_append, length_encodeNat, length_flatMap_encodeEdge]

theorem take_encodeNat_append (width n : ℕ) (rest : List UInt8) :
    (encodeNat width n ++ rest).take width = encodeNat width n :=
  List.take_left' (length_encodeNat width n)

theorem drop_encodeNat_append (width n : ℕ) (rest : List UInt8) :
    (encodeNat width n ++ rest).drop width = rest :=
  List.drop_left' (length_encodeNat width n)

theorem decodeEdges_encode {edges : List Edge}
    (h : ∀ e ∈ edges, e.1 < vertexBound ∧ e.2 < vertexBound) (rest : List UInt8) :
    decodeEdges edges.length (edges.flatMap encodeEdge ++ rest) = edges := by
  induction edges with
  | nil => rfl
  | cons e edges ih =>
    obtain ⟨⟨hfst, hsnd⟩, hedges⟩ := List.forall_mem_cons.mp h
    have hdrop : ((encodeEdge e ++ edges.flatMap encodeEdge) ++ rest).drop 8 =
        edges.flatMap encodeEdge ++ rest := by
      rw [List.append_assoc]
      exact List.drop_left' (length_encodeEdge e)
    rw [List.flatMap_cons, List.length_cons, decodeEdges, hdrop, ih hedges]
    simp only [encodeEdge, List.append_assoc, take_encodeNat_append, drop_encodeNat_append]
    rw [decodeNat_encodeNat hfst, decodeNat_encodeNat hsnd]

theorem encode_append (order : ℕ) (edges : List Edge) (rest : List UInt8) :
    encode order edges ++ rest =
      encodeNat 8 order ++ (encodeNat 8 edges.length ++ (edges.flatMap encodeEdge ++ rest)) := by
  simp only [encode, List.append_assoc]

theorem decodeNat_count_encode {edges : List Edge} (h : edges.length < countBound) (order : ℕ)
    (rest : List UInt8) :
    decodeNat (((encode order edges ++ rest).drop 8).take 8) = edges.length := by
  rw [encode_append, drop_encodeNat_append, take_encodeNat_append, decodeNat_encodeNat h]

/-- A record is read back if the order, the number of edges and the vertices fit into their
bytes. -/
theorem decode_encode_append {order : ℕ} {edges : List Edge} (horder : order < countBound)
    (hlength : edges.length < countBound)
    (hedges : ∀ e ∈ edges, e.1 < vertexBound ∧ e.2 < vertexBound) (rest : List UInt8) :
    decode (encode order edges ++ rest) = .ok (order, edges) := by
  have hsize : 16 + 8 * edges.length ≤ (encode order edges ++ rest).length := by
    rw [List.length_append, length_encode]
    omega
  have hdrop : (encode order edges ++ rest).drop 16 = edges.flatMap encodeEdge ++ rest := by
    rw [encode_append, ← List.drop_drop (i := 8) (j := 8), drop_encodeNat_append,
      drop_encodeNat_append]
  rw [decode, decodeNat_count_encode hlength, if_neg (by omega), hdrop, decodeEdges_encode hedges,
    encode_append, take_encodeNat_append, decodeNat_encodeNat horder]

end BinaryRecord
end MaximalCliques

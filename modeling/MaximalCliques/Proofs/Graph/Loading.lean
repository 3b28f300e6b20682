import MaximalCliques.Proofs.BinaryRecord.Fields
import MaximalCliques.Proofs.Graph.Assembly
import MaximalCliques.Proofs.Graph.Reloading

/-!
# Loading records of any bytes

Bytes are a record if they do not end before the last edge that they announce. Loading them then
comes down to building a graph from the edges at the places of the fields, and fails only as this
does; bytes that end too early are always refused. So no part of a written record can be mistaken for
a record, and nothing that is written behind a record changes its graph.
-/

namespace MaximalCliques.Graph

open BinaryRecord

variable {S T : Type} [VertexSet S] [VertexSet T] [LawfulVertexSet S] [LawfulVertexSet T]
  {bytes more : List UInt8} {g : Graph T}

theorem ofRecord_eq_takeRecord (bytes : List UInt8) :
    (ofRecord bytes : Except Error (Graph S)) =
      takeRecord bytes >>= fun r => ofEdges r.1.1 r.1.2 := by
  rw [ofRecord, ← map_fst_takeRecord]
  cases takeRecord bytes <;> rfl

theorem ofRecord_of_isCutShort (h : IsCutShort bytes) :
    (ofRecord bytes : Except Error (Graph S)) = .error .truncatedRecord := by
  rw [ofRecord, decode_of_isCutShort h]
  rfl

theorem ofRecord_of_not_isCutShort (h : ¬ IsCutShort bytes) :
    (ofRecord bytes : Except Error (Graph S)) = ofEdges (field bytes 0 8) (pairs bytes) := by
  rw [ofRecord, decode_of_not_isCutShort h]
  rfl

theorem ofRecord_eq_truncatedRecord_iff :
    (ofRecord bytes : Except Error (Graph S)) = .error .truncatedRecord ↔ IsCutShort bytes := by
  constructor
  · intro h
    by_contra hwhole
    rw [ofRecord_of_not_isCutShort hwhole] at h
    simpa using ofEdges_error_cause h
  · exact ofRecord_of_isCutShort

theorem ofRecord_eq_of_isPrefix (h : bytes <+: more) (hwhole : ¬ IsCutShort bytes) :
    (ofRecord more : Except Error (Graph S)) = ofRecord bytes := by
  rw [ofRecord, ofRecord, decode_eq_of_isPrefix h hwhole]

/-- The bytes up to the last announced edge are all that matters. -/
theorem ofRecord_eq_of_take_isPrefix (hwhole : ¬ IsCutShort bytes)
    (h : bytes.take (16 + 8 * announced bytes) <+: more) :
    (ofRecord more : Except Error (Graph S)) = ofRecord bytes := by
  let front := bytes.take (16 + 8 * announced bytes)
  have hfront : front <+: bytes := List.take_prefix _ _
  obtain ⟨hcounts, hedges⟩ : 16 ≤ bytes.length ∧ 16 + 8 * announced bytes ≤ bytes.length := by
    simpa [IsCutShort] using hwhole
  have hlength : front.length = 16 + 8 * announced bytes := List.length_take_of_le hedges
  have hannounced : announced bytes = announced front :=
    announced_eq_of_isPrefix hfront (by omega)
  have hfrontWhole : ¬ IsCutShort front := by
    simp only [IsCutShort, not_or, not_lt]
    omega
  exact (ofRecord_eq_of_isPrefix h hfrontWhole).trans
    (ofRecord_eq_of_isPrefix hfront hfrontWhole).symm

theorem Storable.exists_ofRecord_append (h : g.Storable) :
    ∃ g' : Graph S, g'.order = g.order ∧ g'.adjacency = g.adjacency ∧
      ∀ rest, ofRecord (g.toRecord ++ rest) = .ok g' := by
  obtain ⟨g', hg', -, horder, hrows⟩ := g.exists_rebuilt (T := S)
  have hadj : g'.adjacency = g.adjacency := by
    ext v w
    rw [adj_iff, adj_iff, hrows, VertexSet.mem_ofList, mem_partners_edges]
  exact ⟨g', horder, hadj, fun rest => (h.ofRecord_append rest).trans hg'⟩

variable (S T) in
/-- What loading any bytes comes to. The fields are those that are read off the front one after
another. Bytes that are cut short, and only they, are refused as truncated; all others give what
their order and their pairs do, whatever follows the last announced pair. No proper part of a written
record is accepted, and everything that begins with one gives the graph of the record. -/
theorem ofRecord_exact (bytes : List UInt8) :
    ((ofRecord bytes : Except Error (Graph S)) =
      takeRecord bytes >>= fun r => ofEdges r.1.1 r.1.2) ∧
    ((ofRecord bytes : Except Error (Graph S)) = .error .truncatedRecord ↔
      bytes.length < 16 ∨ bytes.length < 16 + 8 * announced bytes) ∧
    (¬ IsCutShort bytes →
      (ofRecord bytes : Except Error (Graph S)) = ofEdges (field bytes 0 8) (pairs bytes) ∧
      ∀ more, bytes.take (16 + 8 * announced bytes) <+: more →
        (ofRecord more : Except Error (Graph S)) = ofRecord bytes) ∧
    ∀ g : Graph T, g.Storable →
      (∀ part, part <+: g.toRecord → part ≠ g.toRecord →
        (ofRecord part : Except Error (Graph S)) = .error .truncatedRecord) ∧
      ∃ g' : Graph S, g'.order = g.order ∧ g'.adjacency = g.adjacency ∧
        ∀ more, g.toRecord <+: more → ofRecord more = .ok g' := by
  refine ⟨ofRecord_eq_takeRecord bytes, ofRecord_eq_truncatedRecord_iff, fun hwhole => ?_,
    fun g hg => ⟨fun part hpart hne => ?_, ?_⟩⟩
  · exact ⟨ofRecord_of_not_isCutShort hwhole, fun more => ofRecord_eq_of_take_isPrefix hwhole⟩
  · exact ofRecord_of_isCutShort (isCutShort_of_isPrefix hg.length_edges_lt hpart hne)
  · obtain ⟨g', horder, hadj, hload⟩ := hg.exists_ofRecord_append (S := S)
    refine ⟨g', horder, hadj, ?_⟩
    rintro _ ⟨rest, rfl⟩
    exact hload rest

/-- Bytes that announce more edges than could ever be stored, a record with more bytes behind it of
which the second edge is out of range, and a written record that is cut or prolonged. -/
theorem ofRecord_exact_diamond :
    diamond.Storable ∧
      (ofRecord (List.replicate 8 0 ++ List.replicate 8 255) : Except Error (Graph DenseSet)) =
        .error .truncatedRecord ∧
      ¬ IsCutShort (encode 3 [(1, 0), (2, 7)] ++ [9, 9]) ∧
      (ofRecord (encode 3 [(1, 0), (2, 7)] ++ [9, 9]) : Except Error (Graph DenseSet)) =
        .error (.outOfRange 7 3) ∧
      (ofRecord (diamond.toRecord.take 50) : Except Error (Graph DenseSet)) =
        .error .truncatedRecord ∧
      ∃ g : Graph DenseSet, g.adjacency = diamond.adjacency ∧
        ofRecord (diamond.toRecord ++ [9, 9]) = .ok g := by
  have hstorable : diamond.Storable := storable_of_order_lt (by decide)
  have hwhole : ¬ IsCutShort (encode 3 [(1, 0), (2, 7)] ++ [9, 9]) := by decide +kernel
  obtain ⟨-, hhuge, -⟩ :=
    ofRecord_exact DenseSet DenseSet (List.replicate 8 0 ++ List.replicate 8 255)
  obtain ⟨-, -, hload, hwritten⟩ :=
    ofRecord_exact DenseSet DenseSet (encode 3 [(1, 0), (2, 7)] ++ [9, 9])
  obtain ⟨hpart, g, -, hadj, hmore⟩ := hwritten diamond hstorable
  have hlength : diamond.toRecord.length = 56 := by decide +kernel
  have hne : diamond.toRecord.take 50 ≠ diamond.toRecord := by
    intro heq
    simpa [hlength] using congrArg List.length heq
  refine ⟨hstorable, hhuge.mpr (by decide +kernel), hwhole, ?_,
    hpart _ (List.take_prefix 50 _) hne, g, hadj, hmore _ (List.prefix_append _ _)⟩
  have hpairs : pairs (encode 3 [(1, 0), (2, 7)] ++ [9, 9]) = [(1, 0), (2, 7)] := by decide +kernel
  rw [(hload hwhole).1, hpairs]
  rfl

end MaximalCliques.Graph

import Mathlib.Data.Nat.Digits.Defs
import MaximalCliques.Proofs.BinaryRecord
import MaximalCliques.Proofs.Checks

/-!
# The fields of a record

Every field of a record has a fixed width, so its place in the bytes is known once the number of
edges is. Looking at all places at once and taking the fields off the front of the bytes, one after
another, are the same: both fail exactly if some field is cut short, however many edges are announced.
-/

namespace MaximalCliques
namespace BinaryRecord

/-- The number in `width` bytes from `start` on, the lowest byte first. -/
def field (bytes : List UInt8) (start width : ℕ) : ℕ :=
  Nat.ofDigits 256 (((bytes.drop start).take width).map UInt8.toNat)

def announced (bytes : List UInt8) : ℕ := field bytes 8 8

def pairs (bytes : List UInt8) : List Edge :=
  (List.range (announced bytes)).map fun i =>
    (field bytes (16 + 8 * i) 4, field bytes (20 + 8 * i) 4)

/-- Bytes that end before the number of edges does, or before the last announced edge. -/
def IsCutShort (bytes : List UInt8) : Prop :=
  bytes.length < 16 ∨ bytes.length < 16 + 8 * announced bytes

instance (bytes : List UInt8) : Decidable (IsCutShort bytes) :=
  inferInstanceAs (Decidable (_ ∨ _))

/-! ## Reading from the front -/

def takeNat (width : ℕ) (bytes : List UInt8) : Except Error (ℕ × List UInt8) :=
  if bytes.length < width then .error .truncatedRecord
  else .ok (decodeNat (bytes.take width), bytes.drop width)

def takeEdges : ℕ → List UInt8 → Except Error (List Edge × List UInt8)
  | 0, bytes => .ok ([], bytes)
  | count + 1, bytes => do
    let (v, bytes) ← takeNat 4 bytes
    let (w, bytes) ← takeNat 4 bytes
    let (edges, bytes) ← takeEdges count bytes
    return ((v, w) :: edges, bytes)

def takeRecord (bytes : List UInt8) : Except Error ((ℕ × List Edge) × List UInt8) := do
  let (order, bytes) ← takeNat 8 bytes
  let (count, bytes) ← takeNat 8 bytes
  let (edges, bytes) ← takeEdges count bytes
  return ((order, edges), bytes)

/-! ## Both ways agree -/

variable {bytes more : List UInt8} {start width : ℕ}

theorem decodeNat_eq_ofDigits (bytes : List UInt8) :
    decodeNat bytes = Nat.ofDigits 256 (bytes.map UInt8.toNat) := by
  induction bytes with
  | nil => rfl
  | cons b bytes ih => simp [decodeNat, Nat.ofDigits_cons, ih]

theorem field_eq_decodeNat (bytes : List UInt8) (start width : ℕ) :
    field bytes start width = decodeNat ((bytes.drop start).take width) :=
  (decodeNat_eq_ofDigits _).symm

theorem decodeEdges_drop (count start : ℕ) (bytes : List UInt8) :
    decodeEdges count (bytes.drop start) = (List.range count).map fun i =>
      (field bytes (start + 8 * i) 4, field bytes (start + 4 + 8 * i) 4) := by
  induction count generalizing start with
  | zero => rfl
  | succ count ih =>
    simp only [decodeEdges, List.drop_drop, ih, List.range_succ_eq_map, List.map_cons, List.map_map,
      field_eq_decodeNat, Nat.mul_zero, Nat.add_zero]
    congr 1
    apply List.map_congr_left
    intro i _
    simp only [Function.comp_apply, Nat.mul_succ]
    ring_nf

theorem pairs_eq_decodeEdges (bytes : List UInt8) :
    pairs bytes = decodeEdges (announced bytes) (bytes.drop 16) :=
  (decodeEdges_drop _ 16 bytes).symm

theorem decode_of_isCutShort (h : IsCutShort bytes) : decode bytes = .error .truncatedRecord := by
  unfold IsCutShort announced at h
  rw [field_eq_decodeNat] at h
  rw [decode, if_pos h]

theorem decode_of_not_isCutShort (h : ¬ IsCutShort bytes) :
    decode bytes = .ok (field bytes 0 8, pairs bytes) := by
  unfold IsCutShort announced at h
  rw [field_eq_decodeNat] at h
  rw [decode, if_neg h, pairs_eq_decodeEdges, announced, field_eq_decodeNat, field_eq_decodeNat,
    List.drop_zero]

theorem takeNat_of_lt (h : bytes.length < width) :
    takeNat width bytes = .error .truncatedRecord := if_pos h

theorem takeNat_of_le (h : width ≤ bytes.length) :
    takeNat width bytes = .ok (decodeNat (bytes.take width), bytes.drop width) :=
  if_neg (not_lt.mpr h)

theorem takeEdges_of_lt {count : ℕ} (h : bytes.length < 8 * count) :
    takeEdges count bytes = .error .truncatedRecord := by
  induction count generalizing bytes with
  | zero => simp at h
  | succ count ih =>
    unfold takeEdges
    by_cases hfst : bytes.length < 4
    · rw [takeNat_of_lt hfst]
      rfl
    · rw [takeNat_of_le (not_lt.mp hfst)]
      by_cases hsnd : (bytes.drop 4).length < 4
      · simp only [bind, Except.bind, takeNat_of_lt hsnd]
      · have hrest : ((bytes.drop 4).drop 4).length < 8 * count := by
          simp at hsnd ⊢
          omega
        simp only [bind, Except.bind, takeNat_of_le (not_lt.mp hsnd), ih hrest]

theorem takeEdges_of_le {count : ℕ} (h : 8 * count ≤ bytes.length) :
    takeEdges count bytes = .ok (decodeEdges count bytes, bytes.drop (8 * count)) := by
  induction count generalizing bytes with
  | zero => rfl
  | succ count ih =>
    have hfst : 4 ≤ bytes.length := by omega
    have hsnd : 4 ≤ (bytes.drop 4).length := by simp; omega
    have hrest : 8 * count ≤ ((bytes.drop 4).drop 4).length := by simp; omega
    simp only [takeEdges, takeNat_of_le hfst, bind, Except.bind, takeNat_of_le hsnd, ih hrest]
    simp [decodeEdges, pure, Except.pure, Nat.mul_succ, Nat.add_comm]

theorem takeRecord_of_lt (h : bytes.length < 16) :
    takeRecord bytes = .error .truncatedRecord := by
  unfold takeRecord
  by_cases horder : bytes.length < 8
  · rw [takeNat_of_lt horder]
    rfl
  · have hcount : (bytes.drop 8).length < 8 := by simp; omega
    simp only [takeNat_of_le (not_lt.mp horder), bind, Except.bind, takeNat_of_lt hcount]

theorem takeRecord_of_le (h : 16 ≤ bytes.length) :
    takeRecord bytes = (takeEdges (announced bytes) (bytes.drop 16)).map fun rest =>
      ((field bytes 0 8, rest.1), rest.2) := by
  have horder : 8 ≤ bytes.length := by omega
  have hcount : 8 ≤ (bytes.drop 8).length := by simp; omega
  simp only [takeRecord, takeNat_of_le horder, takeNat_of_le hcount, bind, Except.bind,
    List.drop_drop, Nat.reduceAdd, announced, field_eq_decodeNat, List.drop_zero]
  cases takeEdges (decodeNat ((bytes.drop 8).take 8)) (bytes.drop 16) <;> rfl

/-- Reading from the front gives what stands at the places of the fields. -/
theorem map_fst_takeRecord (bytes : List UInt8) :
    (takeRecord bytes).map Prod.fst = decode bytes := by
  by_cases hcounts : bytes.length < 16
  · rw [takeRecord_of_lt hcounts, decode_of_isCutShort (.inl hcounts)]
    rfl
  rw [takeRecord_of_le (not_lt.mp hcounts)]
  by_cases hedges : (bytes.drop 16).length < 8 * announced bytes
  · have hshort : IsCutShort bytes := .inr (by simp at hedges; omega)
    rw [takeEdges_of_lt hedges, decode_of_isCutShort hshort]
    rfl
  · have hwhole : ¬ IsCutShort bytes := by
      simp [IsCutShort] at hcounts hedges ⊢
      omega
    rw [takeEdges_of_le (not_lt.mp hedges), decode_of_not_isCutShort hwhole, pairs_eq_decodeEdges]
    rfl

/-! ## Bytes with the same front -/

theorem field_eq_of_isPrefix (h : bytes <+: more) (hlength : start + width ≤ bytes.length) :
    field more start width = field bytes start width := by
  obtain ⟨rest, rfl⟩ := h
  have hstart : start ≤ bytes.length := by omega
  have hwidth : width ≤ (bytes.drop start).length := by simp; omega
  rw [field, field, List.drop_append_of_le_length hstart, List.take_append_of_le_length hwidth]

theorem announced_eq_of_isPrefix (h : bytes <+: more) (hlength : 16 ≤ bytes.length) :
    announced more = announced bytes := field_eq_of_isPrefix h (by omega)

theorem decode_eq_of_isPrefix (h : bytes <+: more) (hwhole : ¬ IsCutShort bytes) :
    decode more = decode bytes := by
  obtain ⟨hcounts, hedges⟩ : 16 ≤ bytes.length ∧ 16 + 8 * announced bytes ≤ bytes.length := by
    simpa [IsCutShort] using hwhole
  have hlength := h.length_le
  have hannounced := announced_eq_of_isPrefix h hcounts
  have hmore : ¬ IsCutShort more := by
    simp only [IsCutShort, not_or, not_lt, hannounced]
    omega
  have hpairs : pairs more = pairs bytes := by
    unfold pairs
    rw [hannounced]
    apply List.map_congr_left
    intro i hi
    have hplace := List.mem_range.mp hi
    rw [field_eq_of_isPrefix h (by omega), field_eq_of_isPrefix h (by omega)]
  rw [decode_of_not_isCutShort hmore, decode_of_not_isCutShort hwhole,
    field_eq_of_isPrefix h (by omega), hpairs]

theorem announced_encode (order : ℕ) {edges : List Edge} (h : edges.length < countBound) :
    announced (encode order edges) = edges.length := by
  rw [announced, field_eq_decodeNat, ← List.append_nil (encode order edges),
    decodeNat_count_encode h]

theorem isCutShort_of_isPrefix {order : ℕ} {edges : List Edge} (hcount : edges.length < countBound)
    (h : bytes <+: encode order edges) (hne : bytes ≠ encode order edges) : IsCutShort bytes := by
  have hlength : bytes.length < 16 + 8 * edges.length := by
    rw [← length_encode order edges]
    exact lt_of_le_of_ne h.length_le fun heq => hne (h.eq_of_length heq)
  by_cases hcounts : bytes.length < 16
  · exact .inl hcounts
  · have hannounced := announced_eq_of_isPrefix h (not_lt.mp hcounts)
    rw [announced_encode order hcount] at hannounced
    exact .inr (by omega)

end BinaryRecord
end MaximalCliques

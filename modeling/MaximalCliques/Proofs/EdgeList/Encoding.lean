import Mathlib.Data.List.Basic
import MaximalCliques.EdgeList

/-!
# Lines of an encoded text

Encoding a text keeps its lines apart: the byte of a line feed stands for a line feed and is part of
no other character. So an encoded text is read line by line, and every line is decoded to what it
was.
-/

namespace MaximalCliques
namespace EdgeList

theorem encode_eq_flatMap (text : List Char) :
    encode text = text.flatMap String.utf8EncodeChar := by
  simp [encode, List.utf8Encode]

theorem encode_append (text rest : List Char) :
    encode (text ++ rest) = encode text ++ encode rest := by
  simp [encode_eq_flatMap]

theorem encode_lineFeed_cons (text : List Char) : encode ('\n' :: text) = 10 :: encode text := by
  rw [encode_eq_flatMap, encode_eq_flatMap, List.flatMap_cons]
  rfl

theorem decode?_encode (text : List Char) : decode? (encode text) = some text := by
  have hbytes : (⟨(encode text).toArray⟩ : ByteArray) = text.utf8Encode := by
    simp [encode]
  rw [decode?, hbytes, List.utf8Decode?_utf8Encode]
  simp

theorem ofNat_ne_lineFeed {n : ℕ} (h : n % 256 ≠ 10) : (10 : UInt8) ≠ UInt8.ofNat n := by
  intro heq
  have := congrArg UInt8.toNat heq
  rw [UInt8.toNat_ofNat'] at this
  exact h this.symm

/-- Only a line feed is encoded with its byte: other characters of one byte are that byte, and the
bytes of longer characters are above 127. -/
theorem not_mem_utf8EncodeChar {c : Char} (hc : c ≠ '\n') : 10 ∉ String.utf8EncodeChar c := by
  have hval : c.val.toNat ≠ 10 := fun h => hc (Char.toNat_inj.mp h)
  rw [String.utf8EncodeChar]
  split_ifs with hone htwo hthree
  · rw [List.mem_singleton]
    exact ofNat_ne_lineFeed (by omega)
  · simp only [List.mem_cons, List.not_mem_nil, or_false, not_or]
    exact ⟨ofNat_ne_lineFeed (by omega), ofNat_ne_lineFeed (by omega)⟩
  · simp only [List.mem_cons, List.not_mem_nil, or_false, not_or]
    exact ⟨ofNat_ne_lineFeed (by omega), ofNat_ne_lineFeed (by omega),
      ofNat_ne_lineFeed (by omega)⟩
  · simp only [List.mem_cons, List.not_mem_nil, or_false, not_or]
    exact ⟨ofNat_ne_lineFeed (by omega), ofNat_ne_lineFeed (by omega),
      ofNat_ne_lineFeed (by omega), ofNat_ne_lineFeed (by omega)⟩

theorem not_mem_encode {text : List Char} (h : '\n' ∉ text) : 10 ∉ encode text := by
  rw [encode_eq_flatMap, List.mem_flatMap]
  rintro ⟨c, hc, hmem⟩
  exact not_mem_utf8EncodeChar (fun heq => h (heq ▸ hc)) hmem

theorem splitLines_encode (text : List Char) :
    splitLines (encode text) = (text.splitOn '\n').map encode := by
  induction hlength : text.length using Nat.strongRecOn generalizing text with
  | ind n ih =>
    unfold splitLines at ih ⊢
    by_cases hmem : '\n' ∈ text
    · obtain ⟨line, rest, rfl, hline⟩ := List.eq_append_cons_of_mem hmem
      have hrest := ih rest.length (by simp at hlength; omega) rest rfl
      rw [encode_append, encode_lineFeed_cons,
        List.splitOn_append_cons_self_of_not_mem (not_mem_encode hline),
        List.splitOn_append_cons_self_of_not_mem hline, List.map_cons, hrest]
    · rw [List.splitOn_eq_singleton hmem, List.splitOn_eq_singleton (not_mem_encode hmem),
        List.map_singleton]

theorem decode?_eq_some_iff {bytes : List UInt8} {text : List Char} :
    decode? bytes = some text ↔ bytes = encode text := by
  constructor
  · intro h
    obtain ⟨chars, hchars, rfl⟩ := Option.map_eq_some_iff.mp h
    have hsome : (ByteArray.utf8Decode? ⟨bytes.toArray⟩).isSome = true := by rw [hchars]; rfl
    have hencode : chars.toList.utf8Encode = ⟨bytes.toArray⟩ := by
      have hget := ByteArray.utf8Encode_get_utf8Decode? (h := hsome)
      simpa only [hchars, Option.get_some] using hget
    rw [encode, String.toUTF8, String.toByteArray_ofList, hencode]
  · rintro rfl
    exact decode?_encode text

theorem encode_injective : Function.Injective encode := fun text text' h =>
  Option.some.inj (by rw [← decode?_encode, h, decode?_encode])

theorem splitOn_flatMap_lineFeed {lines : List (List Char)} (h : ∀ line ∈ lines, '\n' ∉ line) :
    (lines.flatMap (· ++ ['\n'])).splitOn '\n' = lines ++ [[]] := by
  induction lines with
  | nil => rfl
  | cons line lines ih =>
    obtain ⟨hline, hlines⟩ := List.forall_mem_cons.mp h
    rw [List.flatMap_cons, List.append_assoc, List.singleton_append,
      List.splitOn_append_cons_self_of_not_mem hline, ih hlines, List.cons_append]

end EdgeList
end MaximalCliques

import Mathlib.Data.List.Forall2
import MaximalCliques.Proofs.EdgeList.Encoding
import MaximalCliques.Proofs.EdgeList.Grammar

/-!
# Reading lines one after another

Lines are read exactly if each of them encodes a text that says something. Otherwise the first line
that cannot be read is the error; its number is how many lines are read before it, and nothing that
follows matters.
-/

namespace MaximalCliques
namespace EdgeList

def readFrom (number : ℕ) (raws : List (List UInt8)) : Except Error (List Line) :=
  (raws.zipIdx number).mapM fun (raw, number) => readLine raw number

theorem read_eq_readFrom (bytes : List UInt8) : read bytes = readFrom 1 (splitLines bytes) := rfl

variable {raw : List UInt8} {raws before after : List (List UInt8)} {texts : List (List Char)}
  {text : List Char} {line : Line} {lines : List Line} {number : ℕ} {e : Error}

/-! ## One line -/

theorem readLine_eq_ok_iff :
    readLine raw number = .ok line ↔ ∃ text, raw = encode text ∧ Line.Says text line := by
  simp only [← decode?_eq_some_iff, ← Line.read_eq_ok_iff]
  unfold readLine
  cases decode? raw with
  | none => simp
  | some text => cases hread : Line.read text <;> simp [hread]

theorem readLine_encode_eq_ok_iff :
    readLine (encode text) number = .ok line ↔ Line.Says text line := by
  rw [readLine_eq_ok_iff]
  simp [encode_injective.eq_iff]

/-- A line cannot be read if it encodes no text, or a text that says nothing. -/
theorem readLine_eq_error_iff :
    readLine raw number = .error e ↔
      ((∀ text, raw ≠ encode text) ∧ e = .invalidText) ∨
        ∃ text fault, raw = encode text ∧ Line.read text = .error fault ∧
          e = .badLine number fault := by
  simp only [ne_eq, ← decode?_eq_some_iff]
  unfold readLine
  cases decode? raw with
  | none => simp [eq_comm]
  | some text => cases hread : Line.read text <;> simp [hread, eq_comm]

/-! ## Lines in their order -/

theorem readFrom_cons (raw : List UInt8) (raws : List (List UInt8)) (number : ℕ) :
    readFrom number (raw :: raws) = (do
      let line ← readLine raw number
      let lines ← readFrom (number + 1) raws
      return line :: lines) := by
  rw [readFrom, List.zipIdx_cons, List.mapM_cons]
  rfl

theorem readFrom_cons_eq_ok_iff :
    readFrom number (raw :: raws) = .ok lines ↔
      ∃ line, readLine raw number = .ok line ∧
        ∃ more, readFrom (number + 1) raws = .ok more ∧ line :: more = lines := by
  simp only [readFrom_cons, bind_eq_ok_iff, pure, Except.pure, Except.ok.injEq]

theorem readFrom_cons_eq_error_iff :
    readFrom number (raw :: raws) = .error e ↔
      readLine raw number = .error e ∨
        ∃ line, readLine raw number = .ok line ∧ readFrom (number + 1) raws = .error e := by
  simp [readFrom_cons, bind_eq_error_iff, pure, Except.pure]

theorem readFrom_append (before after : List (List UInt8)) (number : ℕ) :
    readFrom number (before ++ after) = (do
      let lines ← readFrom number before
      let more ← readFrom (number + before.length) after
      return lines ++ more) := by
  rw [readFrom, List.zipIdx_append, List.mapM_append]
  rfl

theorem readFrom_append_of_ok (hbefore : readFrom number before = .ok lines) :
    readFrom number (before ++ after) =
      (readFrom (number + before.length) after).map (lines ++ ·) := by
  rw [readFrom_append, hbefore]
  cases readFrom (number + before.length) after <;> rfl

theorem readFrom_append_of_error (hbefore : readFrom number before = .error e) :
    readFrom number (before ++ after) = .error e := by
  rw [readFrom_append, hbefore]
  rfl

/-! ## All lines -/

theorem readFrom_eq_ok_iff :
    readFrom number raws = .ok lines ↔
      List.Forall₂ (fun raw line => ∃ text, raw = encode text ∧ Line.Says text line)
        raws lines := by
  induction raws generalizing number lines with
  | nil =>
    rw [List.forall₂_nil_left_iff]
    simp [readFrom, pure, Except.pure, eq_comm]
  | cons raw raws ih =>
    rw [readFrom_cons_eq_ok_iff, List.forall₂_cons_left_iff]
    simp only [readLine_eq_ok_iff, ih]
    constructor
    · rintro ⟨line, hline, more, hmore, rfl⟩
      exact ⟨line, more, hline, hmore, rfl⟩
    · rintro ⟨line, more, hline, hmore, rfl⟩
      exact ⟨line, hline, more, hmore, rfl⟩

theorem readFrom_encode_eq_ok_iff :
    readFrom number (texts.map encode) = .ok lines ↔ List.Forall₂ Line.Says texts lines := by
  rw [readFrom_eq_ok_iff, List.forall₂_map_left_iff]
  simp [encode_injective.eq_iff]

theorem exists_texts_of_readFrom (h : readFrom number raws = .ok lines) :
    ∃ texts, raws = texts.map encode ∧ List.Forall₂ Line.Says texts lines := by
  induction raws generalizing number lines with
  | nil =>
    obtain rfl : [] = lines := Except.ok.inj h
    exact ⟨[], rfl, .nil⟩
  | cons raw raws ih =>
    obtain ⟨line, hline, more, hmore, rfl⟩ := readFrom_cons_eq_ok_iff.mp h
    obtain ⟨text, rfl, htext⟩ := readLine_eq_ok_iff.mp hline
    obtain ⟨texts, rfl, htexts⟩ := ih hmore
    exact ⟨text :: texts, rfl, .cons htext htexts⟩

/-! ## The first faulty line -/

theorem readFrom_eq_error_iff :
    readFrom number raws = .error e ↔
      ∃ before raw after lines, raws = before ++ raw :: after ∧
        readFrom number before = .ok lines ∧
        readLine raw (number + before.length) = .error e := by
  constructor
  · intro h
    induction raws generalizing number with
    | nil => cases h
    | cons raw raws ih =>
      rcases readFrom_cons_eq_error_iff.mp h with hraw | ⟨line, hraw, hraws⟩
      · exact ⟨[], raw, raws, [], rfl, rfl, hraw⟩
      · obtain ⟨before, faulty, after, lines, rfl, hbefore, hfaulty⟩ := ih hraws
        have hnumber : number + 1 + before.length = number + (raw :: before).length := by
          simp only [List.length_cons]
          omega
        exact ⟨raw :: before, faulty, after, line :: lines, rfl,
          readFrom_cons_eq_ok_iff.mpr ⟨line, hraw, lines, hbefore, rfl⟩, hnumber ▸ hfaulty⟩
  · rintro ⟨before, raw, after, lines, rfl, hbefore, hraw⟩
    rw [readFrom_append_of_ok hbefore, readFrom_cons_eq_error_iff.mpr (.inl hraw)]
    rfl

end EdgeList
end MaximalCliques

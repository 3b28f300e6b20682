import Mathlib.Logic.Relation
import MaximalCliques.Proofs.EdgeList.Grammar

/-!
# Rewriting an edge list

Lines can be reordered, repeated, left blank and ended with a carriage return; the fields of an edge
can change places, spacing and what follows them. None of this changes which lines can be read, nor
what the lines say up to the order of the two vertices of an edge.
-/

namespace MaximalCliques
namespace EdgeList

namespace Line

def flip : Line → Line
  | edge v w => edge w v
  | line => line

/-- What a line says, up to the order of the two vertices of an edge. -/
def Tells (text : List Char) (line : Line) : Prop := Says text line ∨ Says text line.flip

inductive Reworded : List Char → List Char → Prop
  | carriageReturn (text : List Char) : Reworded text (text ++ ['\r'])
  | respace (s s' : Spacing) {first second : List Char} {v w : ℕ}
      (hfirst : Numeral.Denotes first v) (hv : v < vertexBound)
      (hsecond : Numeral.Denotes second w) (hw : w < vertexBound) :
      Reworded (s.line first second) (s'.line first second)
  | flip (s : Spacing) {first second : List Char} {v w : ℕ}
      (hfirst : Numeral.Denotes first v) (hv : v < vertexBound)
      (hsecond : Numeral.Denotes second w) (hw : w < vertexBound) :
      Reworded (s.line first second) (s.line second first)

variable {text text' first second : List Char} {line : Line} {v w : ℕ}

theorem Says.unique {line' : Line} (h : Says text line) (h' : Says text line') : line = line' :=
  Except.ok.inj (h.read_eq.symm.trans h'.read_eq)

theorem flip_flip (line : Line) : line.flip.flip = line := by cases line <;> rfl

theorem exists_tells_iff : (∃ line, Tells text line) ↔ ∃ line, Says text line := by
  constructor
  · rintro ⟨line, h | h⟩
    · exact ⟨line, h⟩
    · exact ⟨line.flip, h⟩
  · rintro ⟨line, h⟩
    exact ⟨line, .inl h⟩

theorem Says.tells_iff {said : Line} (h : Says text said) :
    Tells text line ↔ line = said ∨ line = said.flip := by
  constructor
  · rintro (h' | h')
    · exact .inl (h'.unique h)
    · exact .inr (by rw [← h'.unique h, flip_flip])
  · rintro (rfl | rfl)
    · exact .inl h
    · exact .inr (by rwa [flip_flip])

theorem Reworded.tells_iff (h : Reworded text text') (line : Line) :
    Tells text line ↔ Tells text' line := by
  cases h with
  | carriageReturn =>
    have hgap : IsGap ['\r'] := isGap_nil.cons (by decide)
    simp only [Tells, ← read_eq_ok_iff, read_append_isGap hgap]
  | respace s s' hfirst hv hsecond hw =>
    rw [Says.tells_iff (.edge s hfirst hv hsecond hw),
      Says.tells_iff (.edge s' hfirst hv hsecond hw)]
  | flip s hfirst hv hsecond hw =>
    rw [Says.tells_iff (.edge s hfirst hv hsecond hw),
      Says.tells_iff (.edge s hsecond hw hfirst hv)]
    exact or_comm

end Line

/-- One change to the lines of an edge list that keeps what it describes. -/
inductive Rewritten : List (List Char) → List (List Char) → Prop
  | reorder {texts texts' : List (List Char)} (h : texts.Perm texts') : Rewritten texts texts'
  | duplicate {before after : List (List Char)} {text : List Char} (h : text ∈ before ++ after) :
      Rewritten (before ++ after) (before ++ text :: after)
  | insertBlank {before after : List (List Char)} {text : List Char} (h : IsGap text) :
      Rewritten (before ++ after) (before ++ text :: after)
  | reword {before after : List (List Char)} {text text' : List Char}
      (h : Line.Reworded text text') :
      Rewritten (before ++ text :: after) (before ++ text' :: after)

/-- The lines can be read or not, and tell the same headers and edges. -/
structure SameMeaning (texts texts' : List (List Char)) : Prop where
  readable : (∀ text ∈ texts, ∃ line, Line.Tells text line) ↔
    ∀ text ∈ texts', ∃ line, Line.Tells text line
  tells : ∀ line : Line, line ≠ .blank →
    ((∃ text ∈ texts, Line.Tells text line) ↔ ∃ text ∈ texts', Line.Tells text line)

variable {texts texts' : List (List Char)}

theorem sameMeaning_equivalence : Equivalence SameMeaning where
  refl _ := ⟨Iff.rfl, fun _ _ => Iff.rfl⟩
  symm h := ⟨h.readable.symm, fun line hline => (h.tells line hline).symm⟩
  trans h h' := ⟨h.readable.trans h'.readable, fun line hline =>
    (h.tells line hline).trans (h'.tells line hline)⟩

theorem sameMeaning_of_mem_iff (h : ∀ text, text ∈ texts ↔ text ∈ texts') :
    SameMeaning texts texts' where
  readable := by simp only [h]
  tells _ _ := by simp only [h]

theorem Rewritten.sameMeaning (h : Rewritten texts texts') : SameMeaning texts texts' := by
  cases h with
  | reorder h => exact sameMeaning_of_mem_iff fun _ => h.mem_iff
  | @duplicate before after text h =>
    apply sameMeaning_of_mem_iff
    intro other
    have hmem : other ∈ before ++ text :: after ↔ other = text ∨ other ∈ before ++ after := by
      simp only [List.mem_append, List.mem_cons]
      tauto
    rw [hmem]
    constructor
    · exact .inr
    · rintro (rfl | hother)
      · exact h
      · exact hother
  | @insertBlank before after text h =>
    have htells : ∀ line, Line.Tells text line ↔ line = .blank := fun line => by
      rw [Line.Says.tells_iff (.blank h)]
      exact or_self_iff
    constructor
    · simp [htells, or_imp, forall_and]
    · intro line hline
      simp [htells, hline, or_and_right, exists_or]
  | reword h =>
    constructor
    · simp [h.tells_iff, or_imp, forall_and]
    · intro line _
      simp [h.tells_iff, or_and_right, exists_or]

theorem sameMeaning_of_eqvGen (h : Relation.EqvGen Rewritten texts texts') :
    SameMeaning texts texts' :=
  sameMeaning_equivalence.eqvGen_iff.mp (h.mono fun _ _ => Rewritten.sameMeaning)

end EdgeList
end MaximalCliques

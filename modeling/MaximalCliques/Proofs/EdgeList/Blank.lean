import Mathlib.Data.List.DropRight
import Mathlib.Data.List.Induction
import MaximalCliques.EdgeList.Blank
import MaximalCliques.Proofs.Numeral

/-!
# Words and gaps

A text is made of words and of gaps, which are blank throughout. Trimming takes the gaps at both
ends away, and the fields of a text are its words: a gap adds no field, and text around a blank has
the fields of its two parts. Numerals are words.
-/

namespace MaximalCliques
namespace EdgeList

def IsGap (cs : List Char) : Prop := ∀ c ∈ cs, isBlank c = true

/-- A text without blanks that says something. -/
structure IsWord (cs : List Char) : Prop where
  ne_nil : cs ≠ []
  solid : ∀ c ∈ cs, isBlank c = false

/-- What may follow a word: nothing, or a text that starts with a blank. -/
def EndsWord (cs : List Char) : Prop := ∀ c ∈ cs.head?, isBlank c = true

variable {gap front rest word t : List Char} {c : Char}

theorem isGap_nil : IsGap [] := by simp [IsGap]

theorem IsGap.cons (hc : isBlank c = true) (h : IsGap gap) : IsGap (c :: gap) :=
  List.forall_mem_cons.mpr ⟨hc, h⟩

theorem IsGap.append (hfront : IsGap front) (h : IsGap gap) : IsGap (front ++ gap) :=
  List.forall_mem_append.mpr ⟨hfront, h⟩

theorem IsGap.endsWord (h : IsGap gap) : EndsWord gap := fun _ hc => h _ (List.mem_of_mem_head? hc)

theorem IsGap.endsWord_append (h : IsGap gap) (hne : gap ≠ []) : EndsWord (gap ++ rest) := by
  obtain ⟨c, gap, rfl⟩ := List.exists_cons_of_ne_nil hne
  rintro _ ⟨⟩
  exact h c List.mem_cons_self

theorem IsWord.gap_ne_nil (hword : IsWord word) (h : EndsWord (gap ++ (word ++ rest))) :
    gap ≠ [] := by
  rintro rfl
  obtain ⟨c, letters, rfl⟩ := List.exists_cons_of_ne_nil hword.ne_nil
  have hblank : isBlank c = true := h c rfl
  simp [hword.solid c List.mem_cons_self] at hblank

theorem isPrefix_append_iff_of_endsWord {s : List Char} (hs : ∀ c ∈ s, isBlank c = false)
    (hrest : EndsWord rest) : s <+: word ++ rest ↔ s <+: word := by
  induction word generalizing s with
  | nil =>
    cases s with
    | nil => simp
    | cons c s =>
      cases rest with
      | nil => simp
      | cons d rest =>
        have hne : c ≠ d := by
          rintro rfl
          simpa [hrest c rfl] using hs c List.mem_cons_self
        simp [List.cons_prefix_cons, hne]
  | cons d word ih =>
    cases s with
    | nil => simp
    | cons c s =>
      rw [List.cons_append, List.cons_prefix_cons, List.cons_prefix_cons,
        ih (List.forall_mem_cons.mp hs).2]

/-! ## Trimming -/

theorem trim_eq_rdropWhile (t : List Char) : trim t = (t.dropWhile isBlank).rdropWhile isBlank :=
  rfl

theorem IsGap.dropWhile_append (h : IsGap gap) (t : List Char) :
    (gap ++ t).dropWhile isBlank = t.dropWhile isBlank :=
  List.dropWhile_append_of_pos h

theorem IsGap.rdropWhile_append (h : IsGap gap) (t : List Char) :
    (t ++ gap).rdropWhile isBlank = t.rdropWhile isBlank := by
  have hreverse : ∀ c ∈ gap.reverse, isBlank c = true := fun c hc =>
    h c (List.mem_reverse.mp hc)
  simp only [List.rdropWhile, List.reverse_append, List.dropWhile_append_of_pos hreverse]

theorem IsGap.trim_append (h : IsGap gap) (t : List Char) : trim (gap ++ t) = trim t := by
  simp only [trim_eq_rdropWhile, h.dropWhile_append]

theorem IsGap.trim_eq_nil (h : IsGap gap) : trim gap = [] := by
  have htrim := h.trim_append []
  rwa [List.append_nil] at htrim

theorem IsGap.trim_append_right (h : IsGap gap) (t : List Char) : trim (t ++ gap) = trim t := by
  rw [trim_eq_rdropWhile, trim_eq_rdropWhile, List.dropWhile_append]
  split_ifs with hnil
  · have ht : t.dropWhile isBlank = [] := by simpa using hnil
    have hgap : gap.dropWhile isBlank = [] := by simpa using h.dropWhile_append []
    rw [ht, hgap]
  · exact h.rdropWhile_append _

/-- From a text that starts with a character that is not blank, only a gap at the end is cut off. -/
theorem exists_trim_cons (hc : isBlank c = false) (t : List Char) :
    ∃ s back, IsGap back ∧ t = s ++ back ∧ trim (c :: t) = c :: s := by
  have htrim : trim (c :: t) = (c :: t).rdropWhile isBlank := by
    rw [trim_eq_rdropWhile, List.dropWhile_cons_of_neg (by simp [hc])]
  have hback : IsGap ((c :: t).rtakeWhile isBlank) := fun d hd => List.mem_rtakeWhile_imp hd
  have happend : trim (c :: t) ++ (c :: t).rtakeWhile isBlank = c :: t := by
    rw [htrim, List.rdropWhile_append_rtakeWhile]
  cases hcut : trim (c :: t) with
  | nil =>
    rw [hcut, List.nil_append] at happend
    have hblank : isBlank c = true := hback c (by simp [happend])
    simp [hc] at hblank
  | cons d s =>
    rw [hcut, List.cons_append] at happend
    obtain ⟨rfl, ht⟩ := List.cons.inj happend
    exact ⟨s, _, hback, ht.symm, rfl⟩

theorem trim_eq_self (hhead : ∀ c ∈ t.head?, isBlank c = false)
    (hlast : ∀ c ∈ t.getLast?, isBlank c = false) : trim t = t := by
  have hkeep : ∀ ds : List Char, (∀ c ∈ ds.head?, isBlank c = false) →
      ds.dropWhile isBlank = ds := by
    intro ds hds
    cases ds with
    | nil => rfl
    | cons d ds => rw [List.dropWhile_cons_of_neg (by simp [hds d rfl])]
  rw [trim, hkeep t hhead, hkeep t.reverse (by simpa using hlast), List.reverse_reverse]

theorem IsWord.trim_eq_self (h : IsWord word) : trim word = word :=
  EdgeList.trim_eq_self (fun c hc => h.solid c (List.mem_of_mem_head? hc))
    fun c hc => h.solid c (List.mem_of_mem_getLast? hc)

theorem IsWord.trim_append (h : IsWord word) (hne : front ≠ [])
    (hhead : ∀ c ∈ front.head?, isBlank c = false) : trim (front ++ word) = front ++ word := by
  apply EdgeList.trim_eq_self
  · rwa [List.head?_append_of_ne_nil _ hne]
  · rw [List.getLast?_append_of_ne_nil _ h.ne_nil]
    exact fun c hc => h.solid c (List.mem_of_mem_getLast? hc)

theorem exists_eq_append_trim (t : List Char) :
    ∃ front back, IsGap front ∧ IsGap back ∧ t = front ++ (trim t ++ back) := by
  have hback : trim t ++ (t.dropWhile isBlank).rtakeWhile isBlank = t.dropWhile isBlank :=
    List.rdropWhile_append_rtakeWhile ..
  exact ⟨t.takeWhile isBlank, (t.dropWhile isBlank).rtakeWhile isBlank,
    fun c hc => List.mem_takeWhile_imp hc, fun c hc => List.mem_rtakeWhile_imp hc,
    by rw [hback, List.takeWhile_append_dropWhile]⟩

/-! ## Fields -/

theorem fields_append_cons (hc : isBlank c = true) (front rest : List Char) :
    fields (front ++ c :: rest) = fields front ++ fields rest := by
  rw [fields, List.splitOnP_append_cons _ _ hc, List.filter_append]
  rfl

theorem fields_append_of_endsWord (h : EndsWord rest) (front : List Char) :
    fields (front ++ rest) = fields front ++ fields rest := by
  cases rest with
  | nil => simp [fields]
  | cons c rest =>
    have hc : isBlank c = true := h c rfl
    rw [fields_append_cons hc, ← List.nil_append (c :: rest), fields_append_cons hc]
    rfl

theorem IsGap.fields_eq_nil (h : IsGap gap) : fields gap = [] := by
  induction gap with
  | nil => rfl
  | cons c gap ih =>
    obtain ⟨hc, hgap⟩ := List.forall_mem_cons.mp h
    rw [← List.nil_append (c :: gap), fields_append_cons hc, ih hgap]
    rfl

theorem IsGap.fields_append (h : IsGap gap) (t : List Char) : fields (gap ++ t) = fields t := by
  induction gap with
  | nil => rfl
  | cons c gap ih =>
    obtain ⟨hc, hgap⟩ := List.forall_mem_cons.mp h
    rw [List.cons_append, ← List.nil_append (c :: (gap ++ t)), fields_append_cons hc, ih hgap]
    rfl

theorem fields_trim (t : List Char) : fields (trim t) = fields t := by
  obtain ⟨front, back, hfront, hback, ht⟩ := exists_eq_append_trim t
  calc fields (trim t)
      = fields (trim t) ++ fields back := by rw [hback.fields_eq_nil, List.append_nil]
    _ = fields (front ++ (trim t ++ back)) := by
        rw [hfront.fields_append, fields_append_of_endsWord hback.endsWord]
    _ = fields t := by rw [← ht]

theorem IsWord.fields_eq (h : IsWord word) : fields word = [word] := by
  rw [fields, List.splitOnP_eq_singleton h.solid]
  simp [h.ne_nil]

theorem IsWord.fields_append (h : IsWord word) (hrest : EndsWord rest) :
    fields (word ++ rest) = word :: fields rest := by
  rw [fields_append_of_endsWord hrest, h.fields_eq, List.singleton_append]

theorem exists_solid_append (t : List Char) :
    ∃ word rest, (∀ c ∈ word, isBlank c = false) ∧ EndsWord rest ∧ t = word ++ rest := by
  induction t with
  | nil => exact ⟨[], [], by simp, by simp [EndsWord], rfl⟩
  | cons c t ih =>
    cases hc : isBlank c with
    | true => exact ⟨[], c :: t, by simp, by simpa [EndsWord] using hc, rfl⟩
    | false =>
      obtain ⟨word, rest, hword, hrest, rfl⟩ := ih
      exact ⟨c :: word, rest, List.forall_mem_cons.mpr ⟨hc, hword⟩, hrest, rfl⟩

theorem isGap_or_exists_word (t : List Char) :
    IsGap t ∨ ∃ front word rest, IsGap front ∧ IsWord word ∧ EndsWord rest ∧
      t = front ++ (word ++ rest) := by
  induction t with
  | nil => exact .inl isGap_nil
  | cons c t ih =>
    cases hc : isBlank c with
    | true =>
      rcases ih with ht | ⟨front, word, rest, hfront, hword, hrest, rfl⟩
      · exact .inl (ht.cons hc)
      · exact .inr ⟨c :: front, word, rest, hfront.cons hc, hword, hrest, rfl⟩
    | false =>
      obtain ⟨word, rest, hword, hrest, rfl⟩ := exists_solid_append t
      have hsolid : IsWord (c :: word) :=
        ⟨List.cons_ne_nil _ _, List.forall_mem_cons.mpr ⟨hc, hword⟩⟩
      exact .inr ⟨[], c :: word, rest, isGap_nil, hsolid, hrest, rfl⟩

/-! ## Numerals are words -/

theorem isBlank_eq_false_of_isSome_digit? (h : (Numeral.digit? c).isSome) : isBlank c = false := by
  obtain ⟨hlow, hhigh⟩ := Numeral.isSome_digit?_iff.mp h
  simp [isBlank, blankRanges] at *
  omega

theorem isWord_of_denotes {n : ℕ} (h : Numeral.Denotes t n) : IsWord t where
  ne_nil := h.ne_nil
  solid := by
    intro c hc
    rcases h.eq_plus_or_isSome_digit? hc with rfl | hdigit
    · decide
    · exact isBlank_eq_false_of_isSome_digit? hdigit

end EdgeList
end MaximalCliques

import MaximalCliques.EdgeList
import MaximalCliques.Proofs.EdgeList.Blank

/-!
# What a line says

A grammar of lines, stated without the reader: a line is blank, a comment, a header with the numeral
of an order, or an edge with two numerals of vertices and whatever follows them. Main statement: the
reader takes a line exactly if the grammar does, and for what it says; so a line says one thing at
most.
-/

namespace MaximalCliques
namespace EdgeList

/-- The blanks around the first two fields of a line, and what follows the second. -/
structure Spacing where
  front : List Char
  gap : List Char
  rest : List Char
  isGap_front : IsGap front
  isGap_gap : IsGap gap
  gap_ne_nil : gap ≠ []
  endsWord_rest : EndsWord rest

def Spacing.line (s : Spacing) (first second : List Char) : List Char :=
  s.front ++ (first ++ (s.gap ++ (second ++ s.rest)))

theorem isGap_space : IsGap [' '] := isGap_nil.cons (by decide)

def Spacing.single : Spacing where
  front := []
  gap := [' ']
  rest := []
  isGap_front := isGap_nil
  isGap_gap := isGap_space
  gap_ne_nil := List.cons_ne_nil _ _
  endsWord_rest := isGap_nil.endsWord

namespace Line

/-- The text of a comment whose first word starts with `order`. -/
def IsHeaderText (comment : List Char) : Prop :=
  ∃ word ∈ (fields comment).head?, headerWord <+: word

/-- What a line says. -/
inductive Says : List Char → Line → Prop
  | blank {text : List Char} (htext : IsGap text) : Says text .blank
  | comment {front text : List Char} (hfront : IsGap front) (htext : ¬ IsHeaderText text) :
      Says (front ++ '#' :: text) .blank
  | header {front before gap numeral back : List Char} {n : ℕ} (hfront : IsGap front)
      (hbefore : IsGap before) (hgap : IsGap gap) (hback : IsGap back)
      (hnumeral : Numeral.Denotes numeral n) (hn : n < countBound) :
      Says (front ++ '#' :: (before ++ (headerWord ++ (gap ++ (numeral ++ back))))) (.header n)
  | edge (s : Spacing) {first second : List Char} {v w : ℕ} (hfirst : Numeral.Denotes first v)
      (hv : v < vertexBound) (hsecond : Numeral.Denotes second w) (hw : w < vertexBound) :
      Says (s.line first second) (.edge v w)

variable {text front gap word rest first second : List Char} {line : Line} {n v w : ℕ}

/-! ## Reading a comment -/

theorem solid_headerWord : ∀ c ∈ headerWord, isBlank c = false := by
  simp [headerWord, isBlank, blankRanges]

/-- The text of a header is trimmed, but its first word stays where it is. -/
theorem headerWord_isPrefix_trim_iff (comment : List Char) :
    headerWord <+: trim comment ↔ IsHeaderText comment := by
  rcases isGap_or_exists_word comment with
    hgap | ⟨front, word, rest, hfront, hword, hrest, rfl⟩
  · have hne : ¬ headerWord <+: [] := by decide
    simp [IsHeaderText, hgap.trim_eq_nil, hgap.fields_eq_nil, hne]
  · obtain ⟨c, letters, rfl⟩ := List.exists_cons_of_ne_nil hword.ne_nil
    obtain ⟨s, back, hback, hs, htrim⟩ :=
      exists_trim_cons (hword.solid c List.mem_cons_self) (letters ++ rest)
    have hsame : c :: letters ++ rest = c :: s ++ back := congrArg (c :: ·) hs
    calc headerWord <+: trim (front ++ (c :: letters ++ rest))
        ↔ headerWord <+: c :: s := by rw [hfront.trim_append, List.cons_append, htrim]
      _ ↔ headerWord <+: c :: letters ++ rest := by
          rw [hsame, isPrefix_append_iff_of_endsWord solid_headerWord hback.endsWord]
      _ ↔ headerWord <+: c :: letters :=
          isPrefix_append_iff_of_endsWord solid_headerWord hrest
      _ ↔ IsHeaderText (front ++ (c :: letters ++ rest)) := by
          rw [IsHeaderText, hfront.fields_append, hword.fields_append hrest]
          simp

theorem ofComment_of_not_isHeaderText (h : ¬ IsHeaderText text) : ofComment text = .ok .blank := by
  rw [ofComment, if_neg ((headerWord_isPrefix_trim_iff text).not.mpr h)]

theorem ofComment_header {before gap numeral back : List Char} (hbefore : IsGap before)
    (hgap : IsGap gap) (hback : IsGap back) (hnumeral : Numeral.Denotes numeral n)
    (hn : n < countBound) :
    ofComment (before ++ (headerWord ++ (gap ++ (numeral ++ back)))) = .ok (.header n) := by
  have hword : IsWord numeral := isWord_of_denotes hnumeral
  have htrim : trim (before ++ (headerWord ++ (gap ++ (numeral ++ back)))) =
      headerWord ++ (gap ++ numeral) := by
    have happend : headerWord ++ (gap ++ (numeral ++ back)) =
        ((headerWord ++ gap) ++ numeral) ++ back := by simp
    have hne : headerWord ++ gap ≠ [] := by simp [headerWord]
    have hhead : ∀ c ∈ (headerWord ++ gap).head?, isBlank c = false := by
      rintro _ ⟨⟩
      decide
    rw [hbefore.trim_append, happend, hback.trim_append_right, hword.trim_append hne hhead,
      List.append_assoc]
  have hread : Numeral.read countBound numeral = .ok n :=
    (Numeral.read_eq_ok_iff (by decide)).mpr ⟨hnumeral, hn⟩
  rw [ofComment, htrim, if_pos (List.prefix_append _ _), List.drop_left, hgap.trim_append,
    hword.trim_eq_self, hread]

/-! ## Reading the fields of an edge -/

theorem readVertex_eq_ok_iff {field : List Char} :
    readVertex field = .ok v ↔ Numeral.Denotes field v ∧ v < vertexBound := by
  rw [← Numeral.read_eq_ok_iff (by decide), readVertex]
  cases Numeral.read vertexBound field <;> simp

theorem ofFields_cons_cons_eq_ok_iff {columns : List (List Char)} :
    ofFields (first :: second :: columns) = .ok line ↔
      ∃ v, readVertex first = .ok v ∧ ∃ w, readVertex second = .ok w ∧ .edge v w = line := by
  simp only [ofFields, bind_eq_ok_iff, pure, Except.pure, Except.ok.injEq]

theorem says_of_ofFields_eq_ok (hfront : IsGap front) (hrest : EndsWord rest)
    (h : ofFields (word :: fields rest) = .ok line) : Says (front ++ (word ++ rest)) line := by
  rcases isGap_or_exists_word rest with hgap | ⟨gap, next, more, hgap, hnext, hmore, rfl⟩
  · rw [hgap.fields_eq_nil] at h
    cases h
  · rw [hgap.fields_append, hnext.fields_append hmore] at h
    obtain ⟨v, hfirst, w, hsecond, rfl⟩ := ofFields_cons_cons_eq_ok_iff.mp h
    obtain ⟨hfirst, hv⟩ := readVertex_eq_ok_iff.mp hfirst
    obtain ⟨hsecond, hw⟩ := readVertex_eq_ok_iff.mp hsecond
    exact .edge ⟨front, gap, more, hfront, hgap, hnext.gap_ne_nil hrest, hmore⟩ hfirst hv hsecond hw

theorem says_of_ofComment_eq_ok (hfront : IsGap front) (h : ofComment text = .ok line) :
    Says (front ++ '#' :: text) line := by
  rw [ofComment] at h
  split_ifs at h with hheader
  · obtain ⟨before, back, hbefore, hback, htext⟩ := exists_eq_append_trim text
    obtain ⟨after, hafter⟩ := hheader
    obtain ⟨gap, more, hgap, hmore, hnumeral⟩ := exists_eq_append_trim after
    have hsplit : text = before ++ (headerWord ++ (gap ++ (trim after ++ (more ++ back)))) := by
      calc text = before ++ ((headerWord ++ after) ++ back) := by rw [hafter, ← htext]
        _ = before ++ ((headerWord ++ (gap ++ (trim after ++ more))) ++ back) := by rw [← hnumeral]
        _ = before ++ (headerWord ++ (gap ++ (trim after ++ (more ++ back)))) := by simp
    rw [← hafter, List.drop_left] at h
    split at h
    · rename_i n hread
      obtain ⟨hdenotes, hn⟩ := (Numeral.read_eq_ok_iff (by decide)).mp hread
      obtain rfl := Except.ok.inj h
      rw [hsplit]
      exact .header hfront hbefore hgap (hmore.append hback) hdenotes hn
    · cases h
  · obtain rfl := Except.ok.inj h
    exact .comment hfront ((headerWord_isPrefix_trim_iff text).not.mp hheader)

/-! ## Reading a line -/

theorem read_append_of_isGap (h : IsGap front) (text : List Char) :
    read (front ++ text) = read text := by
  rw [read, read, h.trim_append]

theorem read_append_isGap (h : IsGap gap) (text : List Char) : read (text ++ gap) = read text := by
  rw [read, read, h.trim_append_right]

theorem read_of_isGap (h : IsGap text) : read text = .ok .blank := by
  rw [read, h.trim_eq_nil]
  rfl

theorem read_comment (text : List Char) : read ('#' :: text) = ofComment text := by
  obtain ⟨s, back, hback, rfl, htrim⟩ := exists_trim_cons (c := '#') (by decide) text
  rw [read, htrim]
  simp only [ofComment, hback.trim_append_right]

theorem read_word (hword : IsWord word) (hhead : ∀ c ∈ word.head?, c ≠ '#')
    (hrest : EndsWord rest) : read (word ++ rest) = ofFields (word :: fields rest) := by
  obtain ⟨c, letters, rfl⟩ := List.exists_cons_of_ne_nil hword.ne_nil
  obtain ⟨s, back, hback, hs, htrim⟩ :=
    exists_trim_cons (hword.solid c List.mem_cons_self) (letters ++ rest)
  have hfields : fields (c :: s) = (c :: letters) :: fields rest := by
    rw [← htrim, fields_trim, ← List.cons_append, hword.fields_append hrest]
  have hc : c ≠ '#' := hhead c rfl
  unfold read
  rw [List.cons_append, htrim]
  split
  · simp_all
  · rw [hfields]

theorem read_line (s : Spacing) (hfirst : Numeral.Denotes first v) (hv : v < vertexBound)
    (hsecond : Numeral.Denotes second w) (hw : w < vertexBound) :
    read (s.line first second) = .ok (.edge v w) := by
  have hword : IsWord first := isWord_of_denotes hfirst
  have hhead : ∀ c ∈ first.head?, c ≠ '#' := by
    rintro c hc rfl
    rcases hfirst.eq_plus_or_isSome_digit? (List.mem_of_mem_head? hc) with hplus | hdigit
    · exact absurd hplus (by decide)
    · exact absurd hdigit (by decide)
  have hfields : fields (s.gap ++ (second ++ s.rest)) = second :: fields s.rest := by
    rw [s.isGap_gap.fields_append, (isWord_of_denotes hsecond).fields_append s.endsWord_rest]
  rw [Spacing.line, read_append_of_isGap s.isGap_front,
    read_word hword hhead (s.isGap_gap.endsWord_append s.gap_ne_nil), hfields]
  exact ofFields_cons_cons_eq_ok_iff.mpr ⟨v, readVertex_eq_ok_iff.mpr ⟨hfirst, hv⟩,
    w, readVertex_eq_ok_iff.mpr ⟨hsecond, hw⟩, rfl⟩

theorem Says.read_eq (h : Says text line) : read text = .ok line := by
  cases h with
  | blank htext => exact read_of_isGap htext
  | comment hfront htext =>
    rw [read_append_of_isGap hfront, read_comment, ofComment_of_not_isHeaderText htext]
  | header hfront hbefore hgap hback hnumeral hn =>
    rw [read_append_of_isGap hfront, read_comment,
      ofComment_header hbefore hgap hback hnumeral hn]
  | edge s hfirst hv hsecond hw => exact read_line s hfirst hv hsecond hw

theorem says_of_read_eq_ok (h : read text = .ok line) : Says text line := by
  rcases isGap_or_exists_word text with hgap | ⟨front, word, rest, hfront, hword, hrest, rfl⟩
  · rw [read_of_isGap hgap] at h
    obtain rfl := Except.ok.inj h
    exact .blank hgap
  · rw [read_append_of_isGap hfront] at h
    obtain ⟨c, letters, rfl⟩ := List.exists_cons_of_ne_nil hword.ne_nil
    by_cases hc : c = '#'
    · subst hc
      rw [List.cons_append, read_comment] at h
      exact says_of_ofComment_eq_ok hfront h
    · rw [read_word hword (by rintro _ ⟨⟩; exact hc) hrest] at h
      exact says_of_ofFields_eq_ok hfront hrest h

/-- Reading a line is deciding what the grammar says about it. -/
theorem read_eq_ok_iff : read text = .ok line ↔ Says text line :=
  ⟨says_of_read_eq_ok, Says.read_eq⟩

theorem exists_fault (h : ∀ line, ¬ Says text line) : ∃ fault, read text = .error fault := by
  cases hread : read text with
  | ok line => exact absurd (says_of_read_eq_ok hread) (h line)
  | error fault => exact ⟨fault, rfl⟩

end Line
end EdgeList
end MaximalCliques

import MaximalCliques.Proofs.EdgeList.Meaning

/-!
# Comments in an edge list

A line that starts with a number sign is skipped unless its first word starts with `order`: adding
it anywhere changes neither the graph nor, but for the number of a later line, the error. It is not
enough that the word is another one than `order`: a comment on ordered edges is taken for a header.
-/

namespace MaximalCliques
namespace EdgeList

/-- The error after a line is added behind the given number of lines. -/
def renumber (place : ℕ) : Error → Error
  | .badLine number fault => .badLine (if place < number then number + 1 else number) fault
  | e => e

variable {raws before after : List (List UInt8)} {place number : ℕ} {e : Error}

/-! ## Later and earlier lines -/

theorem readLine_succ (h : place < number) (raw : List UInt8) :
    readLine raw (number + 1) = (readLine raw number).mapError (renumber place) := by
  unfold readLine
  cases decode? raw with
  | none => rfl
  | some text =>
    cases hread : Line.read text with
    | ok line => simp [hread, Except.mapError]
    | error fault => simp [hread, Except.mapError, renumber, h]

theorem readFrom_succ (h : place < number) (raws : List (List UInt8)) :
    readFrom (number + 1) raws = (readFrom number raws).mapError (renumber place) := by
  induction raws generalizing number with
  | nil => rfl
  | cons raw raws ih =>
    rw [readFrom_cons, readFrom_cons, readLine_succ h, ih (by omega)]
    cases readLine raw number with
    | error e => rfl
    | ok line => cases readFrom (number + 1) raws <;> rfl

theorem renumber_of_readFrom_eq_error (h : readFrom number raws = .error e)
    (hplace : number + raws.length ≤ place + 1) : renumber place e = e := by
  obtain ⟨before, raw, after, lines, rfl, -, hraw⟩ := readFrom_eq_error_iff.mp h
  rcases readLine_eq_error_iff.mp hraw with ⟨-, rfl⟩ | ⟨text, fault, -, -, rfl⟩
  · rfl
  · have hlt : ¬ place < number + before.length := by
      simp only [List.length_append, List.length_cons] at hplace
      omega
    rw [renumber, if_neg hlt]

/-! ## Adding a blank line -/

section Insertion

variable {S : Type} [VertexSet S] [LawfulVertexSet S]

theorem ofLines_insert_blank (front back : List Line) :
    (Graph.ofLines (front ++ .blank :: back) : Except Error (Graph S)) =
      Graph.ofLines (front ++ back) := by
  have horder : order (front ++ .blank :: back) = order (front ++ back) := by
    simp [order_eq_sup, Line.order]
  have hedges : edges (front ++ .blank :: back) = edges (front ++ back) := by
    simp only [edges, List.filterMap_append]
    rfl
  rw [Graph.ofLines, Graph.ofLines, horder, hedges]

theorem mapError_renumber_ofLines (lines : List Line) (place : ℕ) :
    (Graph.ofLines lines : Except Error (Graph S)).mapError (renumber place) =
      Graph.ofLines lines := by
  rcases ofLines_cases S lines with ⟨-, -, g, hg, -⟩ | hlarge | ⟨v, hv⟩
  · rw [hg]
    rfl
  · rw [hlarge]
    rfl
  · rw [hv]
    rfl

/-- Adding a line that says nothing changes the numbers of later lines only. -/
theorem ofEdgeList_insert_of_says_blank {bytes bytes' : List UInt8} {text : List Char}
    (htext : Line.Says text .blank) (hbytes : splitLines bytes = before ++ after)
    (hbytes' : splitLines bytes' = before ++ encode text :: after) :
    (Graph.ofEdgeList bytes' : Except Error (Graph S)) =
      (Graph.ofEdgeList bytes).mapError (renumber before.length) := by
  have hblank : ∀ number, readLine (encode text) number = .ok .blank := fun number =>
    readLine_encode_eq_ok_iff.mpr htext
  have hread : read bytes = readFrom 1 (before ++ after) := by rw [read_eq_readFrom, hbytes]
  have hread' : read bytes' = readFrom 1 (before ++ encode text :: after) := by
    rw [read_eq_readFrom, hbytes']
  cases hfront : readFrom 1 before with
  | error e =>
    rw [readFrom_append_of_error hfront] at hread hread'
    rw [ofEdgeList_of_read_eq_error hread, ofEdgeList_of_read_eq_error hread', Except.mapError,
      renumber_of_readFrom_eq_error hfront (by omega)]
  | ok front =>
    have hlater : readFrom (1 + before.length + 1) after =
        (readFrom (1 + before.length) after).mapError (renumber before.length) :=
      readFrom_succ (by omega) after
    rw [readFrom_append_of_ok hfront] at hread hread'
    rw [readFrom_cons, hblank, hlater] at hread'
    cases hback : readFrom (1 + before.length) after with
    | error e =>
      rw [hback] at hread hread'
      rw [ofEdgeList_of_read_eq_error hread, ofEdgeList_of_read_eq_error hread']
      rfl
    | ok back =>
      rw [hback] at hread hread'
      rw [ofEdgeList_of_read hread, ofEdgeList_of_read hread', ofLines_insert_blank,
        mapError_renumber_ofLines]

end Insertion

/-- A comment is skipped if its first word does not start with `order`: wherever the line is added,
the graph is the same, and so is an error but for the number of a later line. -/
theorem ofEdgeList_insert_comment (S : Type) [VertexSet S] [LawfulVertexSet S]
    {bytes bytes' : List UInt8} {before after : List (List UInt8)} {comment : List Char}
    (hbytes : splitLines bytes = before ++ after)
    (hbytes' : splitLines bytes' = before ++ encode ('#' :: comment) :: after)
    (hword : ∀ word ∈ (fields comment).head?, ¬ Line.headerWord <+: word) :
    (Graph.ofEdgeList bytes' : Except Error (Graph S)) =
      (Graph.ofEdgeList bytes).mapError (renumber before.length) := by
  have hnot : ¬ Line.IsHeaderText comment := by
    rintro ⟨word, hmem, hstart⟩
    exact hword word hmem hstart
  exact ofEdgeList_insert_of_says_blank (.comment isGap_nil hnot) hbytes hbytes'

/-- A comment before a faulty line, and the new number of that line. -/
theorem ofEdgeList_insert_comment_aPath :
    splitLines (encode "0 1\n2\n".toList) =
      [encode "0 1".toList] ++ [encode "2".toList, encode []] ∧
    splitLines (encode "0 1\n# a path\n2\n".toList) =
      [encode "0 1".toList] ++ encode ('#' :: " a path".toList) :: [encode "2".toList, encode []] ∧
    (∀ word ∈ (fields " a path".toList).head?, ¬ Line.headerWord <+: word) ∧
    (Graph.ofEdgeList (encode "0 1\n# a path\n2\n".toList) : Except Error (Graph DenseSet)) =
      .error (.badLine 3 .missingVertex) := by
  have hsplit : splitLines (encode "0 1\n2\n".toList) =
      ["0 1".toList].map encode ++ [encode "2".toList, encode []] := by
    rw [splitLines_encode]
    rfl
  have hsplit' : splitLines (encode "0 1\n# a path\n2\n".toList) =
      [encode "0 1".toList] ++ encode ('#' :: " a path".toList) ::
        [encode "2".toList, encode []] := by
    rw [splitLines_encode]
    rfl
  have hword : ∀ word ∈ (fields " a path".toList).head?, ¬ Line.headerWord <+: word := by
    rintro _ ⟨⟩
    decide
  have hfault : readLine (encode "2".toList) 2 = .error (.badLine 2 .missingVertex) :=
    readLine_eq_error_iff.mpr (.inr ⟨_, .missingVertex, rfl, rfl, rfl⟩)
  have herror : (Graph.ofEdgeList (encode "0 1\n2\n".toList) : Except Error (Graph DenseSet)) =
      .error (.badLine 2 .missingVertex) :=
    ofEdgeList_of_readLine_eq_error hsplit (.cons (Line.says_of_read_eq_ok rfl) .nil) hfault
  have hinsert := ofEdgeList_insert_comment DenseSet hsplit hsplit' hword
  rw [herror] at hinsert
  exact ⟨hsplit, hsplit', hword, hinsert⟩

/-- The first word of this comment is not `order`, but it starts with it: an edge list that can be
read without the comment cannot be read with it. -/
theorem ordered_comment_not_skipped :
    (fields " ordered by degree".toList).head? ≠ some Line.headerWord ∧
    (∃ g : Graph DenseSet, Graph.ofEdgeList (encode "0 1\n".toList) = .ok g) ∧
    (Graph.ofEdgeList (encode "# ordered by degree\n0 1\n".toList) :
        Except Error (Graph DenseSet)) =
      .error (.badLine 1 (.badOrder .invalidDigit)) := by
  have hsplit : splitLines (encode "0 1\n".toList) = ["0 1".toList, []].map encode := by
    rw [splitLines_encode]
    rfl
  have hread : read (encode "0 1\n".toList) = .ok [.edge 0 1, .blank] :=
    read_eq_ok hsplit (.cons (Line.says_of_read_eq_ok rfl) (.cons (Line.says_of_read_eq_ok rfl)
      .nil))
  obtain ⟨g, hg, -⟩ := exists_ofLines_describes (S := DenseSet) (by decide)
    (by simp : ∀ v, .edge v v ∉ [Line.edge 0 1, .blank])
  have hsplit' : splitLines (encode "# ordered by degree\n0 1\n".toList) =
      [].map encode ++ encode "# ordered by degree".toList ::
        [encode "0 1".toList, encode []] := by
    rw [splitLines_encode]
    rfl
  have hfault : readLine (encode "# ordered by degree".toList) 1 =
      .error (.badLine 1 (.badOrder .invalidDigit)) :=
    readLine_eq_error_iff.mpr (.inr ⟨_, .badOrder .invalidDigit, rfl, rfl, rfl⟩)
  exact ⟨by decide, ⟨g, (ofEdgeList_of_read hread).trans hg⟩,
    ofEdgeList_of_readLine_eq_error hsplit' .nil hfault⟩

end EdgeList
end MaximalCliques

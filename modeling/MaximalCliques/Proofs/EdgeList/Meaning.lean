import MaximalCliques.Proofs.EdgeList.Description
import MaximalCliques.Proofs.EdgeList.Reading
import MaximalCliques.Proofs.EdgeList.Rewriting

/-!
# What an edge list means

Main statement, for all bytes: if every line says something, the graph of an edge list is the one
its lines describe, or the first loop is the error; otherwise the first faulty line is. Rewriting an
edge list that is read does not change its graph.
-/

namespace MaximalCliques
namespace EdgeList

variable {S : Type} [VertexSet S] [LawfulVertexSet S]

/-! ## The graph of an edge list -/

variable {bytes : List UInt8} {texts texts' : List (List Char)} {lines lines' : List Line}
  {e : Error}

theorem ofEdgeList_of_read (h : read bytes = .ok lines) :
    (Graph.ofEdgeList bytes : Except Error (Graph S)) = Graph.ofLines lines := by
  rw [Graph.ofEdgeList, h]
  rfl

theorem ofEdgeList_of_read_eq_error (h : read bytes = .error e) :
    (Graph.ofEdgeList bytes : Except Error (Graph S)) = .error e := by
  rw [Graph.ofEdgeList, h]
  rfl

theorem read_eq_ok (hbytes : splitLines bytes = texts.map encode)
    (hlines : List.Forall₂ Line.Says texts lines) : read bytes = .ok lines := by
  rw [read_eq_readFrom, hbytes]
  exact readFrom_encode_eq_ok_iff.mpr hlines

theorem describes_of_ofEdgeList {g : Graph S} (h : Graph.ofEdgeList bytes = .ok g) :
    ∃ texts lines, splitLines bytes = texts.map encode ∧ List.Forall₂ Line.Says texts lines ∧
      Table.Fits S (order lines) ∧ (∀ v, .edge v v ∉ lines) ∧ Describes lines g := by
  cases hread : read bytes with
  | error e =>
    rw [ofEdgeList_of_read_eq_error hread] at h
    cases h
  | ok lines =>
    rw [ofEdgeList_of_read hread] at h
    obtain ⟨texts, hbytes, hlines⟩ := exists_texts_of_readFrom hread
    rcases ofLines_cases S lines with ⟨hfits, hloop, g', hg', hdescribes⟩ | hlarge | ⟨v, hv⟩
    · obtain rfl : g' = g := Except.ok.inj (hg'.symm.trans h)
      exact ⟨texts, lines, hbytes, hlines, hfits, hloop, hdescribes⟩
    · cases hlarge.symm.trans h
    · cases hv.symm.trans h

theorem cause_of_ofEdgeList_eq_error
    (h : (Graph.ofEdgeList bytes : Except Error (Graph S)) = .error e) :
    (∃ v, e = .selfLoop v) ∨ e = .invalidText ∨ (∃ number fault, e = .badLine number fault) ∨
      e = .capacityOverflow := by
  cases hread : read bytes with
  | error e' =>
    obtain rfl : e' = e := by
      rw [ofEdgeList_of_read_eq_error hread] at h
      exact Except.error.inj h
    obtain ⟨before, raw, after, lines, -, -, hraw⟩ := readFrom_eq_error_iff.mp hread
    rcases readLine_eq_error_iff.mp hraw with ⟨-, rfl⟩ | ⟨text, fault, -, -, rfl⟩
    · exact .inr (.inl rfl)
    · exact .inr (.inr (.inl ⟨_, fault, rfl⟩))
  | ok lines =>
    rw [ofEdgeList_of_read hread] at h
    rcases ofLines_cases S lines with ⟨-, -, g, hg, -⟩ | hlarge | ⟨v, hv⟩
    · cases hg.symm.trans h
    · exact .inr (.inr (.inr (Except.error.inj (h.symm.trans hlarge))))
    · exact .inl ⟨v, Except.error.inj (h.symm.trans hv)⟩

theorem ofEdgeList_of_readLine_eq_error {raw : List UInt8} {more : List (List UInt8)}
    (hbytes : splitLines bytes = texts.map encode ++ raw :: more)
    (hlines : List.Forall₂ Line.Says texts lines)
    (hraw : readLine raw (texts.length + 1) = .error e) :
    (Graph.ofEdgeList bytes : Except Error (Graph S)) = .error e := by
  have hfront : readFrom 1 (texts.map encode) = .ok lines :=
    readFrom_encode_eq_ok_iff.mpr hlines
  have hnumber : 1 + (texts.map encode).length = texts.length + 1 := by
    rw [List.length_map, Nat.add_comm]
  apply ofEdgeList_of_read_eq_error
  rw [read_eq_readFrom, hbytes]
  exact readFrom_eq_error_iff.mpr ⟨_, raw, more, lines, rfl, hfront, hnumber ▸ hraw⟩

/-! ## The graph of a rewritten edge list -/

theorem exists_lines (h : ∀ text ∈ texts, ∃ line, Line.Tells text line) :
    ∃ lines, List.Forall₂ Line.Says texts lines := by
  induction texts with
  | nil => exact ⟨[], .nil⟩
  | cons text texts ih =>
    obtain ⟨htext, htexts⟩ := List.forall_mem_cons.mp h
    obtain ⟨line, hline⟩ := Line.exists_tells_iff.mp htext
    obtain ⟨lines, hlines⟩ := ih htexts
    exact ⟨line :: lines, .cons hline hlines⟩

theorem exists_tells_of_mem (h : List.Forall₂ Line.Says texts lines) :
    ∀ text ∈ texts, ∃ line, Line.Tells text line := by
  induction h with
  | nil => simp
  | cons hline _ ih => exact List.forall_mem_cons.mpr ⟨⟨_, .inl hline⟩, ih⟩

theorem mem_iff_exists_text (h : List.Forall₂ Line.Says texts lines) (line : Line) :
    line ∈ lines ↔ ∃ text ∈ texts, Line.Says text line := by
  induction h with
  | nil => simp
  | @cons text said texts lines hsaid _ ih =>
    have hfirst : Line.Says text line ↔ line = said := by
      constructor
      · exact fun hline => hline.unique hsaid
      · rintro rfl
        exact hsaid
    rw [List.mem_cons, ih, List.exists_mem_cons_iff, hfirst]

theorem joins_iff_exists_tells (h : List.Forall₂ Line.Says texts lines) (v w : ℕ) :
    Joins lines v w ↔ ∃ text ∈ texts, Line.Tells text (.edge v w) := by
  simp only [Joins, mem_iff_exists_text h, Line.Tells, Line.flip, and_or_left, exists_or]

theorem header_mem_iff_exists_tells (h : List.Forall₂ Line.Says texts lines) (n : ℕ) :
    .header n ∈ lines ↔ ∃ text ∈ texts, Line.Tells text (.header n) := by
  simp only [mem_iff_exists_text h, Line.Tells, Line.flip, or_self]

theorem SameMeaning.joins_iff (hsame : SameMeaning texts texts')
    (h : List.Forall₂ Line.Says texts lines) (h' : List.Forall₂ Line.Says texts' lines')
    (v w : ℕ) : Joins lines v w ↔ Joins lines' v w := by
  rw [joins_iff_exists_tells h, joins_iff_exists_tells h']
  exact hsame.tells _ (by simp)

theorem SameMeaning.asksFor_iff (hsame : SameMeaning texts texts')
    (h : List.Forall₂ Line.Says texts lines) (h' : List.Forall₂ Line.Says texts' lines')
    (n : ℕ) : AsksFor lines n ↔ AsksFor lines' n := by
  have hheader : .header n ∈ lines ↔ .header n ∈ lines' := by
    rw [header_mem_iff_exists_tells h, header_mem_iff_exists_tells h']
    exact hsame.tells _ (by simp)
  simp only [AsksFor, hheader, hsame.joins_iff h h']

theorem exists_ofEdgeList_of_sameMeaning {bytes' : List UInt8} {g : Graph S}
    (hg : Graph.ofEdgeList bytes = .ok g) (hbytes : splitLines bytes = texts.map encode)
    (hbytes' : splitLines bytes' = texts'.map encode) (hsame : SameMeaning texts texts') :
    ∃ h : Graph S, Graph.ofEdgeList bytes' = .ok h ∧ h.order = g.order ∧
      h.adjacency = g.adjacency := by
  obtain ⟨texts, lines, hsplit, hlines, hfits, hloop, hdescribes⟩ := describes_of_ofEdgeList hg
  obtain rfl := encode_injective.list_map (hsplit.symm.trans hbytes)
  obtain ⟨lines', hlines'⟩ := exists_lines (hsame.readable.mp (exists_tells_of_mem hlines))
  have hjoins := hsame.joins_iff hlines hlines'
  have hasks := hsame.asksFor_iff hlines hlines'
  have hfits' : Table.Fits S (order lines') := by
    rw [fits_order_iff] at hfits ⊢
    exact fun n hn => hfits n ((hasks n).mpr hn)
  have hloop' : ∀ v, .edge v v ∉ lines' := by
    intro v hmem
    rcases (hjoins v v).mpr (.inl hmem) with hv | hv <;> exact hloop v hv
  obtain ⟨h, hh, hdescribes'⟩ := exists_ofLines_describes hfits' hloop'
  exact ⟨h, (ofEdgeList_of_read (read_eq_ok hbytes' hlines')).trans hh,
    hdescribes.unique hdescribes' hasks hjoins⟩

/-- What an edge list means, for all bytes. If every line says something and there are arrays for the
orders that the lines ask for, the first loop is the error, and without loops the graph is the one
that the lines describe; an order without an array is an error before any loop. If a line says
nothing, it is the error, whatever follows and whatever loops there are. There are no other errors. An
edge list that is read can be rewritten without a change to the graph. -/
theorem ofEdgeList_exact (S : Type) [VertexSet S] [LawfulVertexSet S] (bytes : List UInt8) :
    (∀ (texts : List (List Char)) (lines : List Line), splitLines bytes = texts.map encode →
      List.Forall₂ Line.Says texts lines →
      ((∀ n, AsksFor lines n → n * VertexSet.bytes S < 2 ^ 63) →
        (∀ before v after, lines = before ++ .edge v v :: after → (∀ u, .edge u u ∉ before) →
          (Graph.ofEdgeList bytes : Except Error (Graph S)) = .error (.selfLoop v)) ∧
        ((∀ v, .edge v v ∉ lines) →
          ∃ g : Graph S, Graph.ofEdgeList bytes = .ok g ∧ Describes lines g)) ∧
      ∀ n, AsksFor lines n → 2 ^ 63 ≤ n * VertexSet.bytes S →
        (Graph.ofEdgeList bytes : Except Error (Graph S)) = .error .capacityOverflow) ∧
    (∀ (before : List (List Char)) (lines : List Line) (raw : List UInt8)
        (after : List (List UInt8)),
      splitLines bytes = before.map encode ++ raw :: after → List.Forall₂ Line.Says before lines →
      ((∀ text, raw ≠ encode text) →
        (Graph.ofEdgeList bytes : Except Error (Graph S)) = .error .invalidText) ∧
      ∀ text, raw = encode text → (∀ line, ¬ Line.Says text line) →
        ∃ fault, Line.read text = .error fault ∧
          (Graph.ofEdgeList bytes : Except Error (Graph S)) =
            .error (.badLine (before.length + 1) fault)) ∧
    (∀ e, (Graph.ofEdgeList bytes : Except Error (Graph S)) = .error e →
      (∃ v, e = .selfLoop v) ∨ e = .invalidText ∨ (∃ number fault, e = .badLine number fault) ∨
        e = .capacityOverflow) ∧
    ∀ g : Graph S, Graph.ofEdgeList bytes = .ok g →
      (∃ texts : List (List Char), splitLines bytes = texts.map encode) ∧
      ∀ (texts texts' : List (List Char)) (bytes' : List UInt8),
        splitLines bytes = texts.map encode → splitLines bytes' = texts'.map encode →
        Relation.EqvGen Rewritten texts texts' →
        ∃ h : Graph S, Graph.ofEdgeList bytes' = .ok h ∧ h.order = g.order ∧
          h.adjacency = g.adjacency := by
  refine ⟨fun texts lines hbytes hlines => ?_, fun before lines raw after hbytes hlines => ?_,
    fun e => cause_of_ofEdgeList_eq_error, fun g hg => ?_⟩
  · have hread : read bytes = .ok lines := read_eq_ok hbytes hlines
    rw [ofEdgeList_of_read hread, ← fits_order_iff]
    constructor
    · exact fun hfits => ⟨fun before v after => ofLines_of_loop hfits,
        exists_ofLines_describes hfits⟩
    · intro n hn hlarge
      apply ofLines_of_not_fits
      rw [fits_order_iff]
      exact fun hfits => absurd (hfits n hn) (not_lt.mpr hlarge)
  · constructor
    · intro hraw
      have hfault : readLine raw (before.length + 1) = .error .invalidText :=
        readLine_eq_error_iff.mpr (.inl ⟨hraw, rfl⟩)
      exact ofEdgeList_of_readLine_eq_error hbytes hlines hfault
    · intro text hraw hnothing
      obtain ⟨fault, hread⟩ := Line.exists_fault hnothing
      have hfault : readLine raw (before.length + 1) =
          .error (.badLine (before.length + 1) fault) :=
        readLine_eq_error_iff.mpr (.inr ⟨text, fault, hraw, hread, rfl⟩)
      exact ⟨fault, hread, ofEdgeList_of_readLine_eq_error hbytes hlines hfault⟩
  · obtain ⟨texts, -, hbytes, -⟩ := describes_of_ofEdgeList hg
    exact ⟨⟨texts, hbytes⟩, fun texts texts' bytes' hbytes hbytes' hrewritten =>
      exists_ofEdgeList_of_sameMeaning hg hbytes hbytes' (sameMeaning_of_eqvGen hrewritten)⟩

/-- An edge between two of four vertices, then rewritten: the line of the edge comes first, its ends
change places, its third column is gone and it ends with a carriage return. -/
theorem ofEdgeList_exact_fourVertices :
    ∃ g h : Graph DenseSet,
      Graph.ofEdgeList (encode "# order 4\n1 0 x\n".toList) = .ok g ∧
      Describes [.header 4, .edge 1 0, .blank] g ∧
      Graph.ofEdgeList (encode "0 1\r\n# order 4\n".toList) = .ok h ∧ h.order = g.order ∧
      h.adjacency = g.adjacency := by
  have hsplit : splitLines (encode "# order 4\n1 0 x\n".toList) =
      ["# order 4".toList, "1 0 x".toList, []].map encode := by
    rw [splitLines_encode]
    rfl
  have hsplit' : splitLines (encode "0 1\r\n# order 4\n".toList) =
      ["0 1\r".toList, "# order 4".toList, []].map encode := by
    rw [splitLines_encode]
    rfl
  have hlines : List.Forall₂ Line.Says ["# order 4".toList, "1 0 x".toList, []]
      [.header 4, .edge 1 0, .blank] :=
    .cons (Line.says_of_read_eq_ok rfl) (.cons (Line.says_of_read_eq_ok rfl)
      (.cons (Line.says_of_read_eq_ok rfl) .nil))
  have hrewritten : Relation.EqvGen Rewritten ["# order 4".toList, "1 0 x".toList, []]
      ["0 1\r".toList, "# order 4".toList, []] := by
    let columns : Spacing := { Spacing.single with
      rest := " x".toList
      endsWord_rest := by simp [EndsWord, isBlank, blankRanges] }
    have hzero : Numeral.Denotes ['0'] 0 := Numeral.denotes_write 0
    have hone : Numeral.Denotes ['1'] 1 := Numeral.denotes_write 1
    have hspace : Rewritten (["# order 4".toList] ++ "1 0 x".toList :: [[]])
        (["# order 4".toList] ++ "1 0".toList :: [[]]) :=
      .reword (.respace columns .single hone (by decide) hzero (by decide))
    have hflip : Rewritten (["# order 4".toList] ++ "1 0".toList :: [[]])
        (["# order 4".toList] ++ "0 1".toList :: [[]]) :=
      .reword (.flip .single hone (by decide) hzero (by decide))
    have hend : Rewritten (["# order 4".toList] ++ "0 1".toList :: [[]])
        (["# order 4".toList] ++ "0 1\r".toList :: [[]]) :=
      .reword (.carriageReturn "0 1".toList)
    have hswap : Rewritten ["# order 4".toList, "0 1\r".toList, []]
        ["0 1\r".toList, "# order 4".toList, []] := .reorder (.swap _ _ _)
    exact .trans _ _ _ (.rel _ _ hspace) (.trans _ _ _ (.rel _ _ hflip)
      (.trans _ _ _ (.rel _ _ hend) (.rel _ _ hswap)))
  have hfits : ∀ n, AsksFor [.header 4, .edge 1 0, .blank] n →
      n * VertexSet.bytes DenseSet < 2 ^ 63 :=
    (fits_order_iff DenseSet).mp (by decide)
  obtain ⟨haccepted, -, -, hkept⟩ :=
    ofEdgeList_exact DenseSet (encode "# order 4\n1 0 x\n".toList)
  obtain ⟨g, hg, hdescribes⟩ := ((haccepted _ _ hsplit hlines).1 hfits).2 (by simp)
  obtain ⟨h, hh, hsame⟩ := (hkept g hg).2 _ _ _ hsplit hsplit' hrewritten
  exact ⟨g, h, hg, hdescribes, hh, hsame⟩

/-- A header asks for more vertices than there is an array for. It says something and there is no
loop, but there is no graph either. -/
theorem ofEdgeList_tooManyVertices :
    splitLines (encode "# order 18446744073709551615\n".toList) =
      ["# order 18446744073709551615".toList, []].map encode ∧
    List.Forall₂ Line.Says ["# order 18446744073709551615".toList, []]
      [.header 18446744073709551615, .blank] ∧
    (∀ v, .edge v v ∉ [Line.header 18446744073709551615, .blank]) ∧
    (Graph.ofEdgeList (encode "# order 18446744073709551615\n".toList) :
      Except Error (Graph DenseSet)) = .error .capacityOverflow ∧
    (Graph.ofEdgeList (encode "# order 18446744073709551615\n".toList) :
      Except Error (Graph IndexedSet)) = .error .capacityOverflow := by
  have hsplit : splitLines (encode "# order 18446744073709551615\n".toList) =
      ["# order 18446744073709551615".toList, []].map encode := by
    rw [splitLines_encode]
    rfl
  have hlines : List.Forall₂ Line.Says ["# order 18446744073709551615".toList, []]
      [.header 18446744073709551615, .blank] :=
    .cons (Line.says_of_read_eq_ok rfl) (.cons (Line.says_of_read_eq_ok rfl) .nil)
  have hread := read_eq_ok hsplit hlines
  exact ⟨hsplit, hlines, by simp,
    (ofEdgeList_of_read hread).trans (ofLines_of_not_fits (by decide)),
    (ofEdgeList_of_read hread).trans (ofLines_of_not_fits (by decide))⟩

end EdgeList
end MaximalCliques

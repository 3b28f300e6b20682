import MaximalCliques.Proofs.Search.Calls

/-!
# Visiting any frame

The candidates and the excluded vertices of a frame need not belong to the stack, nor to any search
that starts from the graph. Whatever they are, a visit reports the stack followed by each clique of
candidates that no other vertex of the frame extends, and gives the stack back. On its way it enters
only frames with candidates, none of them excluded, among the vertices that the first frame has.
-/

namespace MaximalCliques

open VertexSet LawfulVertexSet

variable {S : Type} [VertexSet S]

theorem Frame.isExtension_iff (g : Graph S) (f : Frame S) (C : Finset ℕ) :
    f.IsExtension g C ↔
      C.Nonempty ∧ (∀ v ∈ C, v ∈ toList f.candidates) ∧ g.adjacency.IsClique C ∧
        ∀ w ∈ f.vertexSet, w ∉ C → ∃ c ∈ C, ¬ g.adjacency.Adj w c := by
  constructor
  · intro h
    exact ⟨h.nonempty, h.subset, h.clique, fun w hw _ => h.maximal w hw⟩
  · rintro ⟨hne, hsub, hclique, hmax⟩
    refine ⟨hne, hsub, hclique, fun w hw => ?_⟩
    by_cases hwC : w ∈ C
    · exact ⟨w, hwC, g.adjacency.loopless.irrefl w⟩
    · exact hmax w hw hwC

/-- A call that a visit of a frame may make. -/
structure Call.Within (f : Frame S) (c : Call S) : Prop where
  nonempty : toList c.frame.candidates ≠ []
  separated : c.frame.Separated
  vertexSet_subset : c.frame.vertexSet ⊆ f.vertexSet

namespace Call.Within

variable {g : Graph S} {f : Frame S} {c : Call S}

theorem descend (h : c.Within f) {v : ℕ} {sub : Frame S} (hsub : c.frame.Descends g v sub) :
    Within f ⟨sub, c.stack ++ [v]⟩ := by
  refine ⟨hsub.nonempty, hsub.separated h.separated, ?_⟩
  rw [hsub.vertexSet_eq]
  exact Set.inter_subset_left.trans h.vertexSet_subset

theorem isWithin (h : c.Within f) (hknown : ∀ v ∈ f.vertexSet, v < g.order)
    (choice : Option PivotChoice) : c.frame.isWithin g choice = true :=
  c.frame.isWithin_of_lt_order choice fun v hv => hknown v (h.vertexSet_subset hv)

end Call.Within

variable [LawfulVertexSet S]

/-- A visit of a frame with candidates, none of them excluded, gives its stack back. What it reports
is the stack followed by each nonempty clique of candidates to which no other vertex of the frame is
adjacent as a whole, once each. Every frame that it enters has candidates, none of them excluded, and
it looks up vertices of the graph alone. -/
theorem Graph.visit_exact (g : Graph S) (choice : Option PivotChoice) (f : Frame S)
    (stack : List ℕ) (hsome : isEmpty f.candidates = false)
    (hdisjoint : isDisjoint f.candidates f.excluded = true)
    (hknown : ∀ v, v ∈ toList f.candidates ∨ v ∈ toList f.excluded → v < g.order) :
    (g.visit choice f stack).stack = stack ∧
    (∃ cs : List Clique,
      (g.visit choice f stack).reported = cs.map (stack ++ ·) ∧
      Enumerates cs fun C =>
        C.Nonempty ∧ (∀ v ∈ C, v ∈ toList f.candidates) ∧ g.adjacency.IsClique C ∧
          ∀ w, w ∈ toList f.candidates ∨ w ∈ toList f.excluded → w ∉ C →
            ∃ c ∈ C, ¬ g.adjacency.Adj w c) ∧
    ∀ c ∈ g.calls choice f stack,
      isEmpty c.frame.candidates = false ∧
      isDisjoint c.frame.candidates c.frame.excluded = true ∧
      c.frame.isWithin g choice = true := by
  have hsep : f.Separated := (isDisjoint_iff _ _).mp hdisjoint
  refine ⟨by rw [g.visit_eq], ⟨g.extensions choice f, by rw [g.visit_eq], ?_⟩, fun c hc => ?_⟩
  · exact (g.enumerates_extensions choice f hsep).congr (f.isExtension_iff g)
  · have hfirst : Call.Within f ⟨f, stack⟩ :=
      ⟨(VertexSet.isEmpty_eq_false_iff _).mp hsome, hsep, subset_rfl⟩
    have h : c.Within f := g.calls_induct choice (fun _ _ _ h hsub => h.descend hsub) hfirst hc
    exact ⟨(VertexSet.isEmpty_eq_false_iff _).mpr h.nonempty, (isDisjoint_iff _ _).mpr h.separated,
      h.isWithin hknown choice⟩

/-- All vertices of the diamond but vertex 0, which is excluded. -/
def Frame.withoutCorner : Frame DenseSet := ⟨ofList [1, 2, 3, 4], ofList [0]⟩

/-- The stack has nothing to do with the frame. Vertex 4 has no neighbours, and vertex 0 is not
adjacent to all of the triangle. -/
theorem Graph.visit_exact_withoutCorner :
    isEmpty Frame.withoutCorner.candidates = false ∧
      isDisjoint Frame.withoutCorner.candidates Frame.withoutCorner.excluded = true ∧
      (diamond.visit (some .amongAll) Frame.withoutCorner [4, 0]).reported =
        [[4, 0, 4], [4, 0, 1, 2, 3]] ∧
      ∃ c ∈ [1, 2, 3].toFinset, ¬ diamond.adjacency.Adj 0 c := by
  have hsome : isEmpty Frame.withoutCorner.candidates = false := by decide +kernel
  have hdisjoint : isDisjoint Frame.withoutCorner.candidates Frame.withoutCorner.excluded = true := by
    decide +kernel
  have hknown : ∀ v, v ∈ toList Frame.withoutCorner.candidates ∨
      v ∈ toList Frame.withoutCorner.excluded → v < diamond.order := by
    intro v hv
    rw [← List.mem_append] at hv
    revert v
    decide +kernel
  have hreported : (diamond.visit (some .amongAll) Frame.withoutCorner [4, 0]).reported =
      [[4, 0, 4], [4, 0, 1, 2, 3]] := by decide +kernel
  obtain ⟨-, ⟨cs, hcs, hall⟩, -⟩ :=
    diamond.visit_exact (some .amongAll) Frame.withoutCorner [4, 0] hsome hdisjoint hknown
  have hmem : [4, 0, 1, 2, 3] ∈ cs.map ([4, 0] ++ ·) := by
    rw [← hcs, hreported]
    simp
  obtain ⟨c, hc, heq⟩ := List.mem_map.mp hmem
  obtain rfl : c = [1, 2, 3] := by simpa using heq
  have hmax := (hall.of_mem hc).2.2.2 0 (by decide +kernel) (by decide)
  exact ⟨hsome, hdisjoint, hreported, hmax⟩

end MaximalCliques

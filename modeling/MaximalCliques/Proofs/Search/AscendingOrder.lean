import MaximalCliques.Proofs.Clique.Catalogue
import MaximalCliques.Proofs.Search.Roots
import MaximalCliques.Proofs.Search.SingleCandidate

/-!
# Searching without a pivot in ascending order

Over sets that iterate in ascending order, a search without a pivot reports in canonical order. The
loop over siblings branches on the lowest candidate that is left, and all deeper candidates are
among those that come after it. So the vertex goes in front of ascending cliques of higher vertices,
and its cliques come before all others of the frame. A single candidate needs no argument of its
own, since the general steps come to the same.
-/

namespace MaximalCliques

open VertexSet LawfulVertexSet

/-- Ascending cliques in lexicographic order, none of them twice. -/
structure InOrder (cs : List Clique) : Prop where
  ascending : ∀ c ∈ cs, c.Pairwise (· < ·)
  sorted : cs.Pairwise (· < ·)

namespace InOrder

variable {cs ds : List Clique} {v : ℕ}

theorem nil : InOrder [] := ⟨by simp, List.Pairwise.nil⟩

theorem singleton (v : ℕ) : InOrder [[v]] := ⟨by simp, List.pairwise_singleton _ _⟩

theorem map_cons (h : InOrder cs) (hv : ∀ c ∈ cs, ∀ w ∈ c, v < w) : InOrder (cs.map (v :: ·)) := by
  constructor
  · intro c hc
    obtain ⟨d, hd, rfl⟩ := List.mem_map.mp hc
    exact List.pairwise_cons.mpr ⟨hv d hd, h.ascending d hd⟩
  · apply List.pairwise_map.mpr
    exact h.sorted.imp fun hlt => List.cons_lt_cons_iff.mpr (Or.inr ⟨rfl, hlt⟩)

theorem append (hc : InOrder cs) (hd : InOrder ds) (hfirst : ∀ c ∈ cs, c.head? = some v)
    (hlater : ∀ d ∈ ds, ∃ w ∈ d.head?, v < w) : InOrder (cs ++ ds) := by
  constructor
  · intro c hmem
    exact (List.mem_append.mp hmem).elim (hc.ascending c) (hd.ascending c)
  · apply List.pairwise_append.mpr
    refine ⟨hc.sorted, hd.sorted, fun c hc d hd => ?_⟩
    obtain ⟨cs, rfl⟩ := List.head?_eq_some_iff.mp (hfirst c hc)
    obtain ⟨w, hw, hlt⟩ := hlater d hd
    obtain ⟨ds, rfl⟩ := List.head?_eq_some_iff.mp hw
    exact List.cons_lt_cons_iff.mpr (Or.inl hlt)

end InOrder

variable {S : Type} [VertexSet S] [LawfulVertexSet S]

namespace Frame

variable {g : Graph S} {f : Frame S} {v : ℕ}

theorem inOrder_branch (hv : v ∈ toList f.candidates) (hlow : ∀ w ∈ toList f.candidates, v ≤ w)
    (hf : f.Separated)
    (deeper : ∀ sub : Frame S, size sub.candidates < size f.candidates → sub.Separated →
      InOrder (g.extensions none sub)) :
    let found := (branch g ⟨(remove f.candidates v).set, f.excluded⟩ v).flatMap
      (Step.cliques (g.extensions none))
    InOrder found ∧ ∀ c ∈ found, c.head? = some v := by
  rw [branch_eq]
  split_ifs with hempty
  · cases hcloses : f.closes g v with
    | true => simpa [reports, hcloses, Step.cliques] using InOrder.singleton v
    | false => simpa [reports, hcloses] using InOrder.nil
  · have hdesc : f.Descends g v (f.below g v) :=
      descends_below hv fun hnil => hempty ((VertexSet.isEmpty_iff _).mpr hnil)
    have hsub := hdesc.separated hf
    -- whatever is found below consists of candidates that are neighbours, so of higher ones
    have habove : ∀ c ∈ g.extensions none (f.below g v), ∀ w ∈ c, v < w := by
      intro c hc w hw
      have hmem : w ∈ (f.below g v).candidateSet :=
        ((g.enumerates_extensions none _ hsub).of_mem hc).subset w (List.mem_toFinset.mpr hw)
      obtain ⟨hcand, hadj⟩ := (Set.ext_iff.mp (candidateSet_below g f v) w).mp hmem
      exact lt_of_le_of_ne (hlow w hcand) (g.adjacency.ne_of_adj hadj)
    simp only [List.flatMap_singleton, Step.cliques, List.mem_map]
    refine ⟨(deeper _ hdesc.size_lt hsub).map_cons habove, ?_⟩
    rintro c ⟨d, -, rfl⟩
    rfl

/-- The loop over ascending siblings keeps the order, since each sibling leaves the candidates
before the next one is branched on. -/
theorem inOrder_branches {vs : List ℕ} (hasc : vs.Pairwise (· < ·))
    (hvs : ∀ w, w ∈ toList f.candidates ↔ w ∈ vs) (hf : f.Separated)
    (deeper : ∀ sub : Frame S, size sub.candidates < size f.candidates → sub.Separated →
      InOrder (g.extensions none sub)) :
    let found := (branches g none vs f).flatMap (Step.cliques (g.extensions none))
    InOrder found ∧ ∀ c ∈ found, ∃ w ∈ c.head?, w ∈ vs := by
  induction vs generalizing f with
  | nil => simpa [branches] using InOrder.nil
  | cons v vs ih =>
    obtain ⟨hlow, hasc⟩ := List.pairwise_cons.mp hasc
    have hv : v ∈ toList f.candidates := (hvs v).mpr List.mem_cons_self
    have hfirst : ∀ w ∈ toList f.candidates, v ≤ w := by
      intro w hw
      rcases List.mem_cons.mp ((hvs w).mp hw) with rfl | hw
      · exact le_rfl
      · exact (hlow w hw).le
    have hrest : ∀ w, w ∈ toList (f.pass v).candidates ↔ w ∈ vs := by
      intro w
      simp only [pass, mem_remove, hvs, List.mem_cons]
      constructor
      · rintro ⟨rfl | hw, hne⟩
        · exact absurd rfl hne
        · exact hw
      · exact fun hw => ⟨Or.inr hw, (hlow w hw).ne'⟩
    have hsize : size (f.pass v).candidates ≤ size f.candidates := by
      simp only [size_eq_length]
      exact (nodup_toList _).length_le_of_subset fun w hw => ((mem_remove _ _ _).mp hw).1
    obtain ⟨hbranch, hhead⟩ := inOrder_branch hv hfirst hf deeper
    obtain ⟨hbranches, hheads⟩ := ih hasc hrest (hf.pass v)
      fun sub hsub => deeper sub (lt_of_lt_of_le hsub hsize)
    simp only [branches_cons, List.flatMap_append, List.mem_append]
    refine ⟨hbranch.append hbranches hhead fun c hc => ?_, ?_⟩
    · obtain ⟨w, hw, hmem⟩ := hheads c hc
      exact ⟨w, hw, hlow w hmem⟩
    · rintro c (hc | hc)
      · exact ⟨v, hhead c hc, List.mem_cons_self⟩
      · obtain ⟨w, hw, hmem⟩ := hheads c hc
        exact ⟨w, hw, List.mem_cons_of_mem _ hmem⟩

end Frame

namespace Graph

/-- A visit without a pivot reports in order if every set iterates in ascending order. -/
theorem inOrder_extensions (hasc : ∀ s : S, (toList s).Pairwise (· < ·)) (g : Graph S)
    (f : Frame S) (hf : f.Separated) : InOrder (g.extensions none f) := by
  induction hn : VertexSet.size f.candidates using Nat.strong_induction_on generalizing f with
  | _ n ih =>
    subst hn
    rw [g.extensions_eq, Frame.steps_eq_generalSteps]
    exact (Frame.inOrder_branches (hasc f.candidates) (fun _ => Iff.rfl) hf
      fun sub hlt hsub => ih _ hlt sub hsub rfl).1

/-- The search without a pivot over dense sets reports ascending cliques in lexicographic order, so
bringing them into canonical order changes nothing. The same holds of every frame in which no
candidate is excluded, apart from the stack in front of the cliques. -/
theorem searchWhole_none_inOrder (g : Graph DenseSet) :
    ((∀ c ∈ g.searchWhole none, c.Pairwise (· < ·)) ∧ (g.searchWhole none).Pairwise (· < ·) ∧
      Clique.canonical (g.searchWhole none) = g.searchWhole none) ∧
    ∀ (f : Frame DenseSet) (stack : List ℕ), isDisjoint f.candidates f.excluded = true →
      ∃ cs : List Clique, (g.visit none f stack).reported = cs.map (stack ++ ·) ∧
        (∀ c ∈ cs, c.Pairwise (· < ·)) ∧ cs.Pairwise (· < ·) := by
  have hframe : ∀ f : Frame DenseSet, f.Separated → InOrder (g.extensions none f) :=
    g.inOrder_extensions fun s => s.bitmap.pairwise_toList
  constructor
  · have hwhole : InOrder (g.searchWhole none) := by
      rw [searchWhole_eq]
      exact hframe _ g.separated_wholeFrame
    have hfound := g.enumerates_searchWhole none
    have hcatalogue : Catalogues (g.searchWhole none) g.IsMaximalClique :=
      ⟨hwhole.ascending, hwhole.sorted, hfound.mem_iff⟩
    exact ⟨hwhole.ascending, hwhole.sorted, hfound.catalogues_canonical.unique hcatalogue⟩
  · intro f stack hdisjoint
    have hparts := hframe f ((isDisjoint_iff _ _).mp hdisjoint)
    exact ⟨g.extensions none f, by rw [g.visit_eq], hparts.ascending, hparts.sorted⟩

/-- The diamond, and a frame in its middle on a stack that is not in order. -/
theorem searchWhole_none_inOrder_diamond :
    diamond.searchWhole none = [[0, 1, 2], [1, 2, 3]] ∧
      isDisjoint (ofList [3, 1, 2, 4] : DenseSet) (ofList [0]) = true ∧
      (diamond.visit none ⟨ofList [3, 1, 2, 4], ofList [0]⟩ [4, 0]).reported =
        [[4, 0, 1, 2, 3], [4, 0, 4]] ∧
      ∃ cs : List Clique,
        (diamond.visit none ⟨ofList [3, 1, 2, 4], ofList [0]⟩ [4, 0]).reported =
          cs.map ([4, 0] ++ ·) ∧
        (∀ c ∈ cs, c.Pairwise (· < ·)) ∧ cs.Pairwise (· < ·) := by
  have hdisjoint : isDisjoint (ofList [3, 1, 2, 4] : DenseSet) (ofList [0]) = true := by
    decide +kernel
  exact ⟨by decide +kernel, hdisjoint, by decide +kernel,
    diamond.searchWhole_none_inOrder.2 _ _ hdisjoint⟩

end Graph
end MaximalCliques

import MaximalCliques.Proofs.Search.Enumeration
import MaximalCliques.Proofs.Search.Recursion

/-!
# A visit finds every extension once

The extensions of a frame fall apart by the first vertex that the frame deals with: those with that
vertex come from its branch or its report, those without it are the extensions of the frame for the
siblings. The induction is on the number of candidates, and in a frame on the list of siblings.
-/

namespace MaximalCliques

open VertexSet LawfulVertexSet

variable {S : Type} [VertexSet S] [LawfulVertexSet S]

namespace Frame

variable {g : Graph S} {f : Frame S} {v : ℕ} {C : Finset ℕ}

theorem isExtension_pass (hv : v ∈ toList f.candidates) :
    (f.pass v).IsExtension g C ↔ f.IsExtension g C ∧ v ∉ C := by
  unfold IsExtension
  rw [candidateSet_pass, vertexSet_pass hv, isExtension_inter]
  apply and_congr_right
  intro _
  constructor
  · intro h hvC
    exact h v hvC rfl
  · rintro hvC w hw rfl
    exact hvC hw

theorem isExtension_below (hv : v ∈ toList f.candidates) (hvC : v ∈ C)
    (hne : (C.erase v).Nonempty) :
    (f.below g v).IsExtension g (C.erase v) ↔ f.IsExtension g C := by
  unfold IsExtension
  rw [candidateSet_below, vertexSet_below]
  exact isExtension_erase hv hvC hne

/-- A candidate without neighbours among the candidates is reported if it is an extension. -/
theorem isExtension_singleton_iff_closes (hv : v ∈ toList f.candidates)
    (halone : ∀ w ∈ toList f.candidates, ¬ g.adjacency.Adj v w) :
    f.IsExtension g {v} ↔ f.closes g v = true := by
  unfold IsExtension
  rw [isExtension_singleton hv, closes_iff]
  exact ⟨fun h w hadj hw => h w (Or.inr hw) hadj,
    fun h w hw hadj => hw.elim (fun hw => halone w hw hadj) (h w hadj)⟩

variable (choice : Option PivotChoice)

theorem enumerates_reports {vs : List ℕ} (hnd : vs.Nodup)
    (hvs : ∀ v ∈ vs, v ∈ toList f.candidates)
    (halone : ∀ v ∈ vs, ∀ w ∈ toList f.candidates, ¬ g.adjacency.Adj v w) :
    Enumerates ((f.reports g vs).flatMap (Step.cliques (g.extensions choice)))
      fun C => f.IsExtension g C ∧ ∃ v ∈ C, v ∈ vs := by
  have hflat : (f.reports g vs).flatMap (Step.cliques (g.extensions choice)) =
      (vs.filter (f.closes g)).map fun v => [v] := by
    simp only [reports, List.flatMap_map, Step.cliques]
    exact List.flatMap_pure_eq_map _ _
  have hself : ∀ v ∈ vs, f.IsExtension g {v} ↔ f.closes g v = true := fun v hv =>
    isExtension_singleton_iff_closes (hvs v hv) (halone v hv)
  rw [hflat]
  constructor
  · intro c hc
    obtain ⟨v, -, rfl⟩ := List.mem_map.mp hc
    exact List.nodup_singleton v
  · rw [List.map_map]
    apply (hnd.filter _).map
    intro u w huw
    simpa using huw
  · intro C
    simp only [List.map_map, List.mem_map, List.mem_filter, Function.comp_apply,
      List.toFinset_cons, List.toFinset_nil, insert_empty_eq]
    constructor
    · rintro ⟨v, ⟨hv, hclose⟩, rfl⟩
      exact ⟨(hself v hv).mpr hclose, v, Finset.mem_singleton_self v, hv⟩
    · rintro ⟨hC, v, hvC, hv⟩
      have hsingle : C = {v} := MaximalCliques.IsExtension.eq_singleton hC hvC (halone v hv)
      exact ⟨v, ⟨hv, (hself v hv).mp (hsingle ▸ hC)⟩, hsingle.symm⟩

theorem enumerates_branch (hv : v ∈ toList f.candidates) (hf : f.Separated)
    (deeper : ∀ sub : Frame S, size sub.candidates < size f.candidates → sub.Separated →
      Enumerates (g.extensions choice sub) (sub.IsExtension g)) :
    Enumerates ((branch g ⟨(remove f.candidates v).set, f.excluded⟩ v).flatMap
        (Step.cliques (g.extensions choice))) fun C => v ∈ C ∧ f.IsExtension g C := by
  have hcand := Set.ext_iff.mp (candidateSet_below g f v)
  by_cases hempty : toList (f.below g v).candidates = []
  · have halone : ∀ w ∈ toList f.candidates, ¬ g.adjacency.Adj v w := by
      intro w hw hadj
      simpa [hempty] using (hcand w).mpr ⟨hw, hadj⟩
    have hreports : branch g ⟨(remove f.candidates v).set, f.excluded⟩ v = f.reports g [v] := by
      rw [branch_eq, if_pos ((VertexSet.isEmpty_iff _).mpr hempty)]
    rw [hreports]
    have hall := enumerates_reports choice (List.nodup_singleton v) (by simpa using hv)
      (by simpa using halone)
    exact hall.congr fun C => by simp [and_comm]
  · have hdesc := descends_below hv hempty
    have hflat : (branch g ⟨(remove f.candidates v).set, f.excluded⟩ v).flatMap
        (Step.cliques (g.extensions choice)) =
          (g.extensions choice (f.below g v)).map (v :: ·) := by
      rw [branch_eq, if_neg ((VertexSet.isEmpty_iff _).not.mpr hempty)]
      simp [Step.cliques]
    have hfresh : ∀ D, (f.below g v).IsExtension g D → v ∉ D := fun D hD hvD =>
      g.adjacency.loopless.irrefl v ((hcand v).mp (hD.subset v hvD)).2
    rw [hflat]
    apply ((deeper _ hdesc.size_lt (hdesc.separated hf)).map_cons v hfresh).congr
    intro C
    apply and_congr_right
    intro hvC
    -- the vertex alone is no extension, since one of its neighbours is a candidate
    by_cases hne : (C.erase v).Nonempty
    · exact isExtension_below hv hvC hne
    · apply iff_of_false fun h => hne h.nonempty
      intro h
      have hC : C = {v} := by
        rw [Finset.not_nonempty_iff_eq_empty, Finset.erase_eq_empty_iff] at hne
        exact hne.resolve_left (Finset.nonempty_iff_ne_empty.mp ⟨v, hvC⟩)
      obtain ⟨w, hw⟩ := List.exists_mem_of_ne_nil _ hempty
      obtain ⟨hwf, hadj⟩ := (hcand w).mp hw
      unfold IsExtension at h
      rw [hC, isExtension_singleton hv] at h
      exact h w (Or.inl hwf) hadj

theorem enumerates_branches {vs : List ℕ} (hnd : vs.Nodup)
    (hvs : ∀ v ∈ vs, v ∈ toList f.candidates) (hf : f.Separated)
    (deeper : ∀ sub : Frame S, size sub.candidates < size f.candidates → sub.Separated →
      Enumerates (g.extensions choice sub) (sub.IsExtension g)) :
    Enumerates ((branches g none vs f).flatMap (Step.cliques (g.extensions choice)))
      fun C => f.IsExtension g C ∧ ∃ v ∈ C, v ∈ vs := by
  induction vs generalizing f with
  | nil => exact Enumerates.nil (by simp)
  | cons v vs ih =>
    obtain ⟨hfresh, hnd⟩ := List.nodup_cons.mp hnd
    have hv := hvs v (by simp)
    have hcand : ∀ w, w ∈ toList (f.pass v).candidates ↔ w ∈ toList f.candidates ∧ w ≠ v :=
      fun w => mem_remove _ _ _
    have hsize : size (f.pass v).candidates ≤ size f.candidates := by
      rw [size_eq_length, size_eq_length]
      exact (nodup_toList _).length_le_of_subset fun w hw => ((hcand w).mp hw).1
    have hvs' : ∀ u ∈ vs, u ∈ toList (f.pass v).candidates := fun u hu =>
      (hcand u).mpr ⟨hvs u (by simp [hu]), fun heq => hfresh (heq ▸ hu)⟩
    have rest := ih hnd hvs' (hf.pass v) fun sub hsub => deeper sub (lt_of_lt_of_le hsub hsize)
    rw [branches_cons, List.flatMap_append]
    have hapart : ∀ C, v ∈ C ∧ f.IsExtension g C →
        ¬ ((f.pass v).IsExtension g C ∧ ∃ u ∈ C, u ∈ vs) := by
      rintro C ⟨hvC, -⟩ ⟨hC, -⟩
      exact ((isExtension_pass hv).mp hC).2 hvC
    apply ((enumerates_branch choice hv hf deeper).append rest hapart).congr
    intro C
    rw [isExtension_pass hv]
    constructor
    · rintro (⟨hvC, hC⟩ | ⟨⟨hC, -⟩, u, hu, huvs⟩)
      · exact ⟨hC, v, hvC, by simp⟩
      · exact ⟨hC, u, hu, by simp [huvs]⟩
    · rintro ⟨hC, u, hu, huvs⟩
      by_cases hvC : v ∈ C
      · exact Or.inl ⟨hvC, hC⟩
      · rcases List.mem_cons.mp huvs with rfl | huvs
        · exact absurd hu hvC
        · exact Or.inr ⟨⟨hC, hvC⟩, u, hu, huvs⟩

end Frame

/-- The visit of a frame finds each of its extensions exactly once, whatever the pivot choice. -/
theorem Graph.enumerates_extensions (g : Graph S) (choice : Option PivotChoice) (f : Frame S)
    (hf : f.Separated) : Enumerates (g.extensions choice f) (f.IsExtension g) := by
  induction hn : VertexSet.size f.candidates using Nat.strong_induction_on generalizing f with
  | _ n ih =>
    subst hn
    obtain ⟨isolated, branched, hsteps, hplan⟩ := Frame.exists_plan g choice f
    obtain ⟨hisolated, hbranched, hdisjoint⟩ := List.nodup_append'.mp hplan.nodup
    have hreports := Frame.enumerates_reports choice hisolated
      (fun v hv => hplan.subset v (List.mem_append_left _ hv)) hplan.alone
    have hbranches := Frame.enumerates_branches choice hbranched
      (fun v hv => hplan.subset v (List.mem_append_right _ hv)) hf
      fun sub hlt hsub => ih _ hlt sub hsub rfl
    rw [g.extensions_eq, hsteps, List.flatMap_append]
    have hapart : ∀ C, (f.IsExtension g C ∧ ∃ v ∈ C, v ∈ isolated) →
        ¬ (f.IsExtension g C ∧ ∃ v ∈ C, v ∈ branched) := by
      rintro C ⟨hC, v, hv, hvi⟩ ⟨-, u, hu, hub⟩
      have hsingle : C = {v} := IsExtension.eq_singleton hC hv (hplan.alone v hvi)
      have huv : u = v := by simpa [hsingle] using hu
      exact hdisjoint hvi (huv ▸ hub)
    apply (hreports.append hbranches hapart).congr
    intro C
    constructor
    · rintro (⟨hC, -⟩ | ⟨hC, -⟩) <;> exact hC
    · intro hC
      obtain ⟨v, hv, hmem⟩ := hplan.covers C hC
      rcases List.mem_append.mp hmem with hvi | hvb
      · exact Or.inl ⟨hC, v, hv, hvi⟩
      · exact Or.inr ⟨hC, v, hv, hvb⟩

end MaximalCliques

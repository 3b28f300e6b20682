import MaximalCliques.Proofs.Graph.Adjacency

/-!
# Extensions of a clique

A search knows some vertices that fit its current clique, and may choose from the candidates among
them. An extension is a clique of candidates that no known vertex fits. Restricting both sets to the
neighbours of a vertex corresponds to taking that vertex out of an extension, and with everything
known the extensions of two or more vertices are the maximal cliques.
-/

namespace MaximalCliques

/-- A clique of candidates that no known vertex extends. -/
structure IsExtension (G : SimpleGraph ℕ) (candidates known : Set ℕ) (C : Finset ℕ) : Prop where
  nonempty : C.Nonempty
  subset : ∀ v ∈ C, v ∈ candidates
  clique : G.IsClique C
  maximal : ∀ w ∈ known, ∃ c ∈ C, ¬ G.Adj w c

variable {G : SimpleGraph ℕ} {P K : Set ℕ} {C : Finset ℕ} {v : ℕ}

theorem isExtension_singleton (hv : v ∈ P) :
    IsExtension G P K {v} ↔ ∀ w ∈ K, ¬ G.Adj v w := by
  constructor
  · intro h w hw hadj
    obtain ⟨c, hc, hnot⟩ := h.maximal w hw
    rw [Finset.mem_singleton.mp hc] at hnot
    exact hnot hadj.symm
  · intro h
    have hmax : ∀ w ∈ K, ∃ c ∈ ({v} : Finset ℕ), ¬ G.Adj w c := fun w hw =>
      ⟨v, Finset.mem_singleton_self v, fun hadj => h w hw hadj.symm⟩
    exact ⟨Finset.singleton_nonempty v, by simpa using hv, by simp, hmax⟩

/-- A candidate without neighbours among the candidates is in no extension but its own. -/
theorem IsExtension.eq_singleton (h : IsExtension G P K C) (hv : v ∈ C)
    (halone : ∀ w ∈ P, ¬ G.Adj v w) : C = {v} := by
  rw [Finset.eq_singleton_iff_unique_mem]
  apply And.intro hv
  intro w hw
  by_contra hne
  exact halone w (h.subset w hw) (h.clique hv hw (Ne.symm hne))

theorem isExtension_inter (Q : Set ℕ) :
    IsExtension G (P ∩ Q) K C ↔ IsExtension G P K C ∧ ∀ v ∈ C, v ∈ Q := by
  constructor
  · intro h
    exact ⟨⟨h.nonempty, fun v hv => (h.subset v hv).1, h.clique, h.maximal⟩,
      fun v hv => (h.subset v hv).2⟩
  · rintro ⟨h, hQ⟩
    exact ⟨h.nonempty, fun v hv => ⟨h.subset v hv, hQ v hv⟩, h.clique, h.maximal⟩

theorem isExtension_erase (hv : v ∈ P) (hvC : v ∈ C) (hne : (C.erase v).Nonempty) :
    IsExtension G (P ∩ G.neighborSet v) (K ∩ G.neighborSet v) (C.erase v) ↔
      IsExtension G P K C := by
  constructor
  · intro h
    constructor
    · exact ⟨v, hvC⟩
    · intro w hw
      by_cases heq : w = v
      · exact heq ▸ hv
      · exact (h.subset w (Finset.mem_erase.mpr ⟨heq, hw⟩)).1
    · rw [← Finset.insert_erase hvC, Finset.coe_insert, SimpleGraph.isClique_insert]
      exact ⟨h.clique, fun w hw _ => (h.subset w hw).2⟩
    · intro w hw
      by_cases hwv : G.Adj v w
      · obtain ⟨c, hc, hnot⟩ := h.maximal w ⟨hw, hwv⟩
        exact ⟨c, Finset.mem_of_mem_erase hc, hnot⟩
      · exact ⟨v, hvC, fun h => hwv h.symm⟩
  · intro h
    constructor
    · exact hne
    · intro w hw
      obtain ⟨hwv, hwC⟩ := Finset.mem_erase.mp hw
      exact ⟨h.subset w hwC, h.clique hvC hwC (Ne.symm hwv)⟩
    · exact h.clique.subset (Finset.coe_subset.mpr (Finset.erase_subset v C))
    · intro w hw
      obtain ⟨c, hc, hnot⟩ := h.maximal w hw.1
      have hcv : c ≠ v := by
        rintro rfl
        exact hnot hw.2.symm
      exact ⟨c, Finset.mem_erase.mpr ⟨hcv, hc⟩, hnot⟩

namespace Graph

variable {S : Type} [VertexSet S]

theorem isMaximalClique_iff_isExtension (g : Graph S) (C : Finset ℕ) :
    g.IsMaximalClique C ↔ 2 ≤ C.card ∧ IsExtension g.adjacency Set.univ Set.univ C := by
  unfold IsMaximalClique
  apply and_congr_right
  intro hcard
  constructor
  · intro h
    apply IsExtension.mk (Finset.card_pos.mp (by omega)) (fun _ _ => Set.mem_univ _) h.prop
    intro w _
    by_contra! hw
    have hins : g.adjacency.IsClique (insert w C : Finset ℕ) := by
      rw [Finset.coe_insert, SimpleGraph.isClique_insert]
      exact ⟨h.prop, fun c hc _ => hw c hc⟩
    have hmem : w ∈ C := h.le_of_ge hins (Finset.subset_insert w C) (Finset.mem_insert_self w C)
    exact g.adjacency.loopless.irrefl w (hw w hmem)
  · intro h
    apply And.intro h.clique
    intro D hD hsub w hw
    by_contra hwC
    obtain ⟨c, hc, hadj⟩ := h.maximal w (Set.mem_univ w)
    exact hadj (hD hw (hsub hc) fun heq => hwC (heq ▸ hc))

/-- Among the vertices with neighbours, the extensions are the maximal cliques. -/
theorem isExtension_support_iff (g : Graph S) (C : Finset ℕ) :
    IsExtension g.adjacency g.adjacency.support g.adjacency.support C ↔ g.IsMaximalClique C := by
  rw [isMaximalClique_iff_isExtension]
  constructor
  · intro h
    obtain ⟨v, hv⟩ := h.nonempty
    obtain ⟨w, hvw⟩ := g.adjacency.mem_support.mp (h.subset v hv)
    have hcard : 2 ≤ C.card := by
      by_contra! hlt
      have hsingle : C = {v} := Finset.eq_singleton_iff_unique_mem.mpr
        ⟨hv, fun u hu => Finset.card_le_one.mp (by omega) u hu v hv⟩
      subst hsingle
      exact (isExtension_singleton (h.subset v hv)).mp h w
        (g.adjacency.mem_support.mpr ⟨v, hvw.symm⟩) hvw
    apply And.intro hcard
    apply IsExtension.mk h.nonempty (fun _ _ => Set.mem_univ _) h.clique
    intro u _
    by_cases huv : g.adjacency.Adj u v
    · exact h.maximal u (g.adjacency.mem_support.mpr ⟨v, huv⟩)
    · exact ⟨v, hv, huv⟩
  · rintro ⟨hcard, h⟩
    have hsupport : ∀ v ∈ C, v ∈ g.adjacency.support := by
      intro v hv
      obtain ⟨w, -, hadj⟩ := exists_adj_of_mem_clique h.clique hcard hv
      exact g.adjacency.mem_support.mpr ⟨w, hadj⟩
    exact ⟨h.nonempty, hsupport, h.clique, fun u _ => h.maximal u (Set.mem_univ u)⟩

/-- A maximal clique is a vertex together with an extension among the neighbours of that vertex. -/
theorem isMaximalClique_erase (g : Graph S) {C : Finset ℕ} {v : ℕ} (hvC : v ∈ C) :
    IsExtension g.adjacency (g.adjacency.neighborSet v) (g.adjacency.neighborSet v) (C.erase v) ↔
      g.IsMaximalClique C := by
  rw [isMaximalClique_iff_isExtension]
  have herase := isExtension_erase (G := g.adjacency) (K := Set.univ) (Set.mem_univ v) hvC
  rw [Set.univ_inter] at herase
  have hcard : 2 ≤ C.card ↔ (C.erase v).Nonempty := by
    rw [← Finset.card_pos, Finset.card_erase_of_mem hvC]
    omega
  rw [hcard]
  exact ⟨fun h => ⟨h.nonempty, (herase h.nonempty).mp h⟩, fun h => (herase h.1).mpr h.2⟩

end Graph
end MaximalCliques

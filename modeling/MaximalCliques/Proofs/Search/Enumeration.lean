import Mathlib.Data.Finset.Card
import Mathlib.Data.Set.Function
import MaximalCliques.Basic

/-!
# Exact enumerations

A search names sets of vertices by lists. It enumerates a property of sets exactly when every set
with the property is named once, no other set is named, and no list repeats a vertex.
-/

namespace MaximalCliques

/-- The lists name exactly the sets with the property, each once and without repeats. -/
structure Enumerates (cs : List Clique) (P : Finset ℕ → Prop) : Prop where
  nodup : ∀ c ∈ cs, c.Nodup
  distinct : (cs.map List.toFinset).Nodup
  mem_iff : ∀ C, C ∈ cs.map List.toFinset ↔ P C

namespace Enumerates

variable {cs ds : List Clique} {P Q : Finset ℕ → Prop}

theorem congr (h : Enumerates cs P) (hPQ : ∀ C, P C ↔ Q C) : Enumerates cs Q :=
  ⟨h.nodup, h.distinct, fun C => (h.mem_iff C).trans (hPQ C)⟩

theorem perm (h : Enumerates cs P) (hds : ds.Perm cs) : Enumerates ds P :=
  ⟨fun c hc => h.nodup c (hds.mem_iff.mp hc), (hds.map _).nodup_iff.mpr h.distinct,
    fun C => (hds.map _).mem_iff.trans (h.mem_iff C)⟩

theorem nil (hP : ∀ C, ¬ P C) : Enumerates [] P :=
  ⟨by simp, by simp, fun C => by simpa using hP C⟩

theorem append (hP : Enumerates cs P) (hQ : Enumerates ds Q) (hPQ : ∀ C, P C → ¬ Q C) :
    Enumerates (cs ++ ds) fun C => P C ∨ Q C := by
  constructor
  · intro c hc
    rcases List.mem_append.mp hc with hc | hc
    · exact hP.nodup c hc
    · exact hQ.nodup c hc
  · rw [List.map_append, List.nodup_append']
    refine ⟨hP.distinct, hQ.distinct, fun C hC hC' => ?_⟩
    exact hPQ C ((hP.mem_iff C).mp hC) ((hQ.mem_iff C).mp hC')
  · intro C
    rw [List.map_append, List.mem_append, hP.mem_iff, hQ.mem_iff]

theorem map_cons (h : Enumerates cs P) (v : ℕ) (hv : ∀ C, P C → v ∉ C) :
    Enumerates (cs.map (v :: ·)) fun C => v ∈ C ∧ P (C.erase v) := by
  have fresh : ∀ c ∈ cs, v ∉ c := by
    intro c hc hvc
    have hP := (h.mem_iff c.toFinset).mp (List.mem_map_of_mem hc)
    exact hv _ hP (List.mem_toFinset.mpr hvc)
  have hmap : (cs.map (v :: ·)).map List.toFinset = (cs.map List.toFinset).map (insert v) := by
    simp only [List.map_map, Function.comp_def, List.toFinset_cons]
  constructor
  · intro c hc
    obtain ⟨d, hd, rfl⟩ := List.mem_map.mp hc
    exact List.nodup_cons.mpr ⟨fresh d hd, h.nodup d hd⟩
  · rw [hmap]
    apply h.distinct.map_on
    intro C hC D hD heq
    have hvC := hv C ((h.mem_iff C).mp hC)
    have hvD := hv D ((h.mem_iff D).mp hD)
    rw [← Finset.erase_insert hvC, heq, Finset.erase_insert hvD]
  · intro C
    rw [hmap, List.mem_map]
    constructor
    · rintro ⟨D, hD, rfl⟩
      have hP := (h.mem_iff D).mp hD
      exact ⟨Finset.mem_insert_self v D, by rwa [Finset.erase_insert (hv D hP)]⟩
    · rintro ⟨hvC, hP⟩
      exact ⟨C.erase v, (h.mem_iff _).mpr hP, Finset.insert_erase hvC⟩

theorem of_mem (h : Enumerates cs P) {c : Clique} (hc : c ∈ cs) : P c.toFinset :=
  (h.mem_iff _).mp (List.mem_map_of_mem hc)

theorem card_of_mem (h : Enumerates cs P) {c : Clique} (hc : c ∈ cs) :
    c.toFinset.card = c.length :=
  List.toFinset_card_of_nodup (h.nodup c hc)

theorem bijOn (h : Enumerates cs P) :
    Set.BijOn (fun i : Fin cs.length => (cs.get i).toFinset) Set.univ {C | P C} := by
  refine ⟨fun i _ => h.of_mem (List.getElem_mem i.isLt), fun i _ j _ hij => ?_, fun C hC => ?_⟩
  · have hi : i.val < (cs.map List.toFinset).length := by simp
    have hj : j.val < (cs.map List.toFinset).length := by simp
    have heq : (cs.map List.toFinset)[i.val] = (cs.map List.toFinset)[j.val] := by
      simpa using hij
    exact Fin.ext (h.distinct.getElem_inj_iff.mp heq)
  · obtain ⟨i, hi, hget⟩ := List.mem_iff_getElem.mp ((h.mem_iff C).mpr hC)
    rw [List.length_map] at hi
    exact ⟨⟨i, hi⟩, Set.mem_univ _, by simpa using hget⟩

end Enumerates
end MaximalCliques

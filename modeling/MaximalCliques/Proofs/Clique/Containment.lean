import Mathlib.Data.List.Find
import MaximalCliques.Proofs.Clique.Verification

/-!
# The check for containment compares all pairs of cliques

The check looks for a clique that contains another only among those that hold the first vertex of
the other, by comparing the lengths and walking both. In a list of ascending cliques this finds the
first clique that is properly contained in any, and the first one that contains it.
-/

namespace MaximalCliques

namespace Clique

/-- The check of one clique against all in the list, by their sets of vertices. -/
def checkAgainstAll (cs : List Clique) (inner : Clique) : Except Rejection Unit :=
  match cs.find? fun outer => inner.toFinset ⊂ outer.toFinset with
  | some outer => .error (.violation (.contained inner outer))
  | none => .ok ()

variable {cs : List Clique} {order : ℕ}

theorem checkAgainstAll_eq_ok_iff (inner : Clique) :
    checkAgainstAll cs inner = .ok () ↔ ∀ outer ∈ cs, ¬ inner.toFinset ⊂ outer.toFinset := by
  unfold checkAgainstAll
  cases hfind : cs.find? fun outer => inner.toFinset ⊂ outer.toFinset with
  | none => simpa using hfind
  | some outer =>
    have hlt : inner.toFinset ⊂ outer.toFinset := by simpa using List.find?_some hfind
    simp only [reduceCtorEq, false_iff]
    exact fun hnone => hnone outer (List.mem_of_find?_eq_some hfind) hlt

theorem checkAgainstAll_eq_error_iff (inner : Clique) (e : Rejection) :
    checkAgainstAll cs inner = .error e ↔
      ∃ outer, e = .violation (.contained inner outer) ∧
        cs.find? (fun outer => inner.toFinset ⊂ outer.toFinset) = some outer := by
  unfold checkAgainstAll
  cases cs.find? fun outer => inner.toFinset ⊂ outer.toFinset <;> simp [eq_comm]

theorem forM_checkAgainstAll_eq_error_iff (e : Rejection) :
    cs.forM (checkAgainstAll cs) = .error e ↔
      ∃ inner outer, e = .violation (.contained inner outer) ∧
        cs.find? (fun inner => ∃ outer ∈ cs, inner.toFinset ⊂ outer.toFinset) = some inner ∧
        cs.find? (fun outer => inner.toFinset ⊂ outer.toFinset) = some outer := by
  simp only [forM_eq_error_iff, checkAgainstAll_eq_ok_iff, checkAgainstAll_eq_error_iff]
  constructor
  · rintro ⟨before, inner, after, hsplit, hbefore, outer, he, houter⟩
    refine ⟨inner, outer, he, ?_, houter⟩
    have hexists : ∃ outer ∈ cs, inner.toFinset ⊂ outer.toFinset :=
      ⟨outer, List.mem_of_find?_eq_some houter, by simpa using List.find?_some houter⟩
    refine List.find?_eq_some_iff_append.mpr
      ⟨decide_eq_true hexists, before, after, hsplit, fun c hc => ?_⟩
    simpa using hbefore c hc
  · rintro ⟨inner, outer, he, hinner, houter⟩
    obtain ⟨-, before, after, hsplit, hbefore⟩ := List.find?_eq_some_iff_append.mp hinner
    refine ⟨before, inner, after, hsplit, fun c hc => ?_, outer, he, houter⟩
    simpa using hbefore c hc

theorem flatMap_replicate_count (h : ∀ c ∈ cs, c.Nodup) (v : ℕ) :
    (cs.flatMap fun c => List.replicate (c.count v) c) = cs.filter (v ∈ ·) := by
  induction cs with
  | nil => rfl
  | cons c cs ih =>
    obtain ⟨hc, hcs⟩ := List.forall_mem_cons.mp h
    rw [List.flatMap_cons, ih hcs]
    by_cases hv : v ∈ c
    · simp [hv, List.count_eq_one_of_mem hc hv]
    · simp [hv, List.count_eq_zero.mpr hv]

theorem toFinset_ssubset_iff {c d : Clique} (hc : c.Pairwise (· < ·)) (hd : d.Pairwise (· < ·)) :
    c.toFinset ⊂ d.toFinset ↔ c.length < d.length ∧ SortedList.isSubset c d = true := by
  rw [SortedList.isSubset_iff_subset hc hd, ← List.toFinset_card_of_nodup hc.nodup,
    ← List.toFinset_card_of_nodup hd.nodup]
  have hsub : c ⊆ d ↔ c.toFinset ⊆ d.toFinset := by simp [Finset.subset_iff, List.subset_def]
  rw [hsub]
  constructor
  · exact fun h => ⟨Finset.card_lt_card h, h.subset⟩
  · rintro ⟨hcard, hsub⟩
    exact ⟨hsub, fun hsup => absurd (Finset.card_le_card hsup) (not_le.mpr hcard)⟩

/-- The index leads to the first clique that properly contains the given one. -/
theorem find?_index (h : ∀ c ∈ cs, c.Pairwise (· < ·)) {v : ℕ} {vs : List ℕ} (hv : v < order)
    (hinner : (v :: vs : Clique) ∈ cs) :
    ((index cs order).getD v []).find? (fun outer =>
        (v :: vs).length < outer.length && SortedList.isSubset (v :: vs) outer) =
      cs.find? fun outer => (v :: vs).toFinset ⊂ outer.toFinset := by
  rw [Array.getD_eq_getD_getElem?, getElem?_index, if_pos hv, Option.getD_some,
    flatMap_replicate_count (fun c hc => (h c hc).nodup), List.find?_filter]
  refine List.find?_congr fun outer houter => ?_
  have hmem : (v :: vs).toFinset ⊂ outer.toFinset → v ∈ outer := fun hlt =>
    List.mem_toFinset.mp (hlt.subset (List.mem_toFinset.mpr List.mem_cons_self))
  have hssubset := toFinset_ssubset_iff (h _ hinner) (h _ houter)
  rw [Bool.eq_iff_iff, decide_eq_true_iff, decide_eq_true_iff, decide_eq_true_iff,
    Bool.and_eq_true, decide_eq_true_iff, ← hssubset]
  exact and_iff_right_of_imp hmem

theorem checkContainment_eq_forM
    (h : ∀ c ∈ cs, c ≠ [] ∧ c.Pairwise (· < ·) ∧ ∀ v ∈ c, v < order) :
    checkContainment cs order = cs.forM (checkAgainstAll cs) := by
  rw [checkContainment, find?_unknown_eq_none fun c hc => (h c hc).2.2]
  refine forM_congr fun inner hinner => ?_
  obtain ⟨hne, -, hlt⟩ := h inner hinner
  cases inner with
  | nil => exact absurd rfl hne
  | cons v vs =>
    simp only [checkAgainstAll]
    rw [find?_index (fun c hc => (h c hc).2.1) (hlt v List.mem_cons_self) hinner]
    cases cs.find? fun outer => (v :: vs).toFinset ⊂ outer.toFinset <;> rfl

/-- On non-empty ascending cliques over vertices below the order the check decides whether a clique
is properly contained in another. It reports the first one that is, along with the first one that
contains it. -/
theorem checkContainment_exact {cs : List Clique} {order : ℕ}
    (h : ∀ c ∈ cs, c ≠ [] ∧ c.Pairwise (· < ·) ∧ ∀ v ∈ c, v < order) :
    (checkContainment cs order = .ok () ↔
      ∀ inner ∈ cs, ∀ outer ∈ cs, ¬ inner.toFinset ⊂ outer.toFinset) ∧
    ∀ e, checkContainment cs order = .error e ↔
      ∃ inner outer, e = .violation (.contained inner outer) ∧
        cs.find? (fun inner => ∃ outer ∈ cs, inner.toFinset ⊂ outer.toFinset) = some inner ∧
        cs.find? (fun outer => inner.toFinset ⊂ outer.toFinset) = some outer := by
  rw [checkContainment_eq_forM h]
  refine ⟨?_, forM_checkAgainstAll_eq_error_iff⟩
  rw [forM_eq_ok_iff]
  exact forall₂_congr fun inner _ => checkAgainstAll_eq_ok_iff inner

/-- In an unsorted list with repeats a clique further on is reported as the outer one, and the
inner one is not the shortest. -/
theorem checkContainment_exact_unsorted :
    (∀ c ∈ ([[1, 3], [1, 2], [0, 1, 2], [1, 2], [1]] : List Clique),
        c ≠ [] ∧ c.Pairwise (· < ·) ∧ ∀ v ∈ c, v < 4) ∧
      checkContainment [[1, 3], [1, 2], [0, 1, 2], [1, 2], [1]] 4 =
        .error (.violation (.contained [1, 2] [0, 1, 2])) := by
  have hcliques : ∀ c ∈ ([[1, 3], [1, 2], [0, 1, 2], [1, 2], [1]] : List Clique),
      c ≠ [] ∧ c.Pairwise (· < ·) ∧ ∀ v ∈ c, v < 4 := by decide
  refine ⟨hcliques, ((checkContainment_exact hcliques).2 _).mpr ⟨[1, 2], [0, 1, 2], rfl, ?_, ?_⟩⟩
  · decide
  · decide

end Clique
end MaximalCliques

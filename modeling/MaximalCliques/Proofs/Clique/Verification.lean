import Mathlib.Data.List.Permutation
import MaximalCliques.Clique.Verification
import MaximalCliques.Proofs.Checks
import MaximalCliques.Proofs.Clique.CanonicalOrder
import MaximalCliques.Proofs.Clique.SortedList
import MaximalCliques.Proofs.Graph.Adjacency

/-!
# Verification accepts exactly the lists of distinct maximal cliques

The check of one clique passes when it lists a maximal clique, the check for repeats when no two
cliques have the same vertices. Nothing is left for the check for containment to find, because a
maximal clique lies in no other clique.
-/

namespace MaximalCliques

open VertexSet LawfulVertexSet

variable {S : Type} [VertexSet S]

/-- The list names two or more distinct vertices that are adjacent to each other, and no other
vertex of the graph is adjacent to all of them. -/
structure Graph.ListsMaximalClique (g : Graph S) (c : Clique) : Prop where
  two_le_length : 2 ≤ c.length
  nodup : c.Nodup
  pairwise_adj : c.Pairwise g.adjacency.Adj
  maximal : ∀ x < g.order, x ∉ c → ∃ v ∈ c, ¬ g.adjacency.Adj v x

namespace Clique

theorem forall_mem_pairs (P : ℕ → ℕ → Prop) (c : Clique) :
    (∀ p ∈ c.pairs, P p.1 p.2) ↔ c.Pairwise P := by
  induction c with
  | nil => simp [pairs]
  | cons v vs ih =>
    rw [pairs, List.forall_mem_append, List.forall_mem_map, ih, List.pairwise_cons]

/-- In a sorted list an equal clique further on leaves no room for another one in between. -/
theorem head?_eq_some_of_mem {c : Clique} {cs : List Clique} (h : (c :: cs).Pairwise (· ≤ ·))
    (hmem : c ∈ cs) : cs.head? = some c := by
  obtain ⟨hle, hcs⟩ := List.pairwise_cons.mp h
  cases cs with
  | nil => cases hmem
  | cons d ds =>
    have hdc : d ≤ c := by
      rcases List.mem_cons.mp hmem with rfl | hmem
      · exact le_rfl
      · exact (List.pairwise_cons.mp hcs).1 c hmem
    rw [List.head?_cons, le_antisymm hdc (hle d List.mem_cons_self)]

theorem repeated?_eq_none_iff {cs : List Clique} (h : cs.Pairwise (· ≤ ·)) :
    repeated? cs = none ↔ cs.Nodup := by
  induction cs with
  | nil => simp [repeated?]
  | cons c cs ih =>
    rw [repeated?, List.nodup_cons]
    split_ifs with hhead
    · simp [List.mem_of_mem_head? hhead]
    · rw [ih h.of_cons, iff_and_self]
      exact fun _ hmem => hhead (head?_eq_some_of_mem h hmem)

theorem getElem?_foldl_modify (c : Clique) (vs : List ℕ) (table : Array (List Clique)) (v : ℕ) :
    (vs.foldl (fun table v => table.modify v (c :: ·)) table)[v]? =
      table[v]?.map (List.replicate (vs.count v) c ++ ·) := by
  induction vs generalizing table with
  | nil => simp
  | cons w vs ih =>
    rw [List.foldl_cons, ih, Array.getElem?_modify]
    by_cases hwv : w = v
    · subst hwv
      rw [if_pos rfl, Option.map_map, List.count_cons_self, List.replicate_succ']
      simp [Function.comp_def]
    · rw [if_neg hwv, List.count_cons_of_ne hwv]

theorem getElem?_index (cs : List Clique) (order v : ℕ) :
    (index cs order)[v]? =
      if v < order then some (cs.flatMap fun c => List.replicate (c.count v) c) else none := by
  induction cs with
  | nil => simp [index, Array.getElem?_replicate]
  | cons c cs ih =>
    rw [index, List.foldr_cons, getElem?_foldl_modify, ← index, ih]
    split_ifs <;> simp

theorem mem_of_mem_index {cs : List Clique} {order v : ℕ} {c : Clique}
    (h : c ∈ (index cs order).getD v []) : c ∈ cs := by
  rw [Array.getD_eq_getD_getElem?, getElem?_index] at h
  split_ifs at h
  · obtain ⟨d, hd, hc⟩ := List.mem_flatMap.mp h
    exact List.eq_of_mem_replicate hc ▸ hd
  · cases h

theorem find?_unknown_eq_none {cs : List Clique} {order : ℕ} (h : ∀ c ∈ cs, ∀ v ∈ c, v < order) :
    cs.flatten.find? (order ≤ ·) = none := by
  rw [List.find?_eq_none]
  intro v hv
  obtain ⟨c, hc, hvc⟩ := List.mem_flatten.mp hv
  simpa using h c hc v hvc

end Clique

namespace Graph

variable {g : Graph S} {c : Clique}

namespace ListsMaximalClique

theorem adj (h : g.ListsMaximalClique c) {v w : ℕ} (hv : v ∈ c) (hw : w ∈ c) (hne : v ≠ w) :
    g.adjacency.Adj v w :=
  have := g.adjacency.symm
  h.pairwise_adj.forall hv hw hne

theorem perm (h : g.ListsMaximalClique c) {d : Clique} (hcd : c.Perm d) :
    g.ListsMaximalClique d := by
  constructor
  · exact hcd.length_eq ▸ h.two_le_length
  · exact hcd.nodup_iff.mp h.nodup
  · exact (hcd.pairwise_iff fun h => h.symm).mp h.pairwise_adj
  · intro x hx hxd
    obtain ⟨v, hv, hnot⟩ := h.maximal x hx (hxd ∘ hcd.mem_iff.mp)
    exact ⟨v, hcd.mem_iff.mp hv, hnot⟩

theorem lt_order (h : g.ListsMaximalClique c) {v : ℕ} (hv : v ∈ c) : v < g.order := by
  obtain ⟨w, hw, hne⟩ : ∃ w ∈ c, w ≠ v := by
    by_contra! hall
    have hsub : c ⊆ [v] := fun w hw => List.mem_singleton.mpr (hall w hw)
    have hlength := h.two_le_length.trans (h.nodup.length_le_of_subset hsub)
    simp at hlength
  exact lt_order_of_adj (h.adj hv hw hne.symm)

theorem not_sublist (h : g.ListsMaximalClique c) {d : Clique} (hd : g.ListsMaximalClique d)
    (hlength : c.length < d.length) : ¬ c.Sublist d := by
  intro hsub
  obtain ⟨x, hxd, hxc⟩ : ∃ x ∈ d, x ∉ c := by
    by_contra! hall
    exact absurd (hd.nodup.length_le_of_subset hall) (not_le.mpr hlength)
  obtain ⟨v, hv, hnot⟩ := h.maximal x (hd.lt_order hxd) hxc
  exact hnot (hd.adj (hsub.subset hv) hxd fun hvx => hxc (hvx ▸ hv))

end ListsMaximalClique

theorem mem_sortedNeighbours (v w : ℕ) :
    w ∈ g.sortedNeighbours v ↔ g.adjacency.Adj v w := by
  rw [sortedNeighbours, List.mem_mergeSort]
  rfl

theorem pairwise_sortedNeighbours (v : ℕ) : (g.sortedNeighbours v).Pairwise (· ≤ ·) :=
  List.pairwise_mergeSort' (· ≤ ·) _

theorem mem_foldl_intersection (vs common : List ℕ) (h : common.Pairwise (· ≤ ·)) (x : ℕ) :
    x ∈ vs.foldl (fun common w => SortedList.intersection common (g.sortedNeighbours w)) common ↔
      x ∈ common ∧ ∀ v ∈ vs, g.adjacency.Adj v x := by
  induction vs generalizing common with
  | nil => simp
  | cons v vs ih =>
    rw [List.foldl_cons, ih _ (h.sublist (SortedList.intersection_sublist _ _)),
      SortedList.mem_intersection h (pairwise_sortedNeighbours v), mem_sortedNeighbours,
      List.forall_mem_cons, and_assoc]

theorem mem_commonNeighbours (hc : c ≠ []) (x : ℕ) :
    x ∈ g.commonNeighbours c ↔ ∀ v ∈ c, g.adjacency.Adj v x := by
  cases c with
  | nil => exact absurd rfl hc
  | cons v vs =>
    rw [commonNeighbours, mem_foldl_intersection _ _ (pairwise_sortedNeighbours v),
      mem_sortedNeighbours, List.forall_mem_cons]

theorem commonNeighbours_eq_nil_iff (hc : c ≠ []) :
    g.commonNeighbours c = [] ↔ ∀ x < g.order, x ∉ c → ∃ v ∈ c, ¬ g.adjacency.Adj v x := by
  rw [List.eq_nil_iff_forall_not_mem]
  simp only [mem_commonNeighbours hc, not_forall, exists_prop]
  constructor
  · intro h x _ _
    exact h x
  · intro h x
    by_contra! hall
    obtain ⟨v, hv⟩ := List.exists_mem_of_ne_nil c hc
    obtain ⟨w, hw, hnot⟩ := h x (lt_order_of_adj (hall v hv).symm) fun hx =>
      g.adjacency.loopless.irrefl x (hall x hx)
    exact hnot (hall w hw)

theorem verifyClique_eq (g : Graph S) (c : Clique) :
    g.verifyClique c =
      if c.length < 2 then .error (.violation (.tooSmall c))
      else
        match c.pairs.forM fun p => g.verifyPair c p.1 p.2 with
        | .error e => .error e
        | .ok () =>
          match g.commonNeighbours c with
          | [] => .ok ()
          | x :: _ => .error (.violation (.notMaximal c x)) := by
  unfold verifyClique
  split_ifs with hlength
  · rfl
  · simp only [bind, Except.bind]
    cases c.pairs.forM fun p => g.verifyPair c p.1 p.2 with
    | error e => rfl
    | ok u => cases g.commonNeighbours c <;> rfl

theorem verifyClique_ne_contained (c inner outer : Clique) :
    g.verifyClique c ≠ .error (.violation (.contained inner outer)) := by
  rw [verifyClique_eq]
  split_ifs with hlength
  · simp
  · cases hforM : c.pairs.forM fun p => g.verifyPair c p.1 p.2 with
    | error e =>
      obtain ⟨-, p, -, -, -, hp⟩ := (forM_eq_error_iff _ _ _).mp hforM
      intro h
      rw [Except.error.inj h, verifyPair] at hp
      split_ifs at hp <;> cases hp
    | ok u => cases g.commonNeighbours c <;> simp

/-- Lists of maximal cliques leave nothing for the check for containment to find. -/
theorem checkContainment_eq_ok {cs : List Clique} (h : ∀ c ∈ cs, g.ListsMaximalClique c) :
    Clique.checkContainment cs g.order = .ok () := by
  rw [Clique.checkContainment, Clique.find?_unknown_eq_none fun c hc v hv => (h c hc).lt_order hv,
    forM_eq_ok_iff]
  intro inner hinner
  cases inner with
  | nil => exact absurd (h [] hinner).two_le_length (by simp)
  | cons v vs =>
    have hnone : ((Clique.index cs g.order).getD v []).find? (fun outer =>
        (v :: vs).length < outer.length && SortedList.isSubset (v :: vs) outer) = none := by
      rw [List.find?_eq_none]
      intro outer houter hboth
      obtain ⟨hlength, hsub⟩ := Bool.and_eq_true_iff.mp hboth
      exact (h _ hinner).not_sublist (h outer (Clique.mem_of_mem_index houter))
        (of_decide_eq_true hlength) (SortedList.sublist_of_isSubset hsub)
    simp only [hnone]

theorem checkContainment_sortList_eq_ok {cs : List Clique}
    (h : ∀ c ∈ cs, g.ListsMaximalClique c) :
    Clique.checkContainment (Clique.sortList (cs.map Clique.sort)) g.order = .ok () := by
  apply checkContainment_eq_ok
  intro c hc
  obtain ⟨d, hd, rfl⟩ := List.mem_map.mp ((Clique.sortList_perm _).mem_iff.mp hc)
  exact (h d hd).perm d.sort_perm.symm

theorem verify_of_forM_eq_error {cs : List Clique} {e : Rejection}
    (h : (cs.map Clique.sort).forM g.verifyClique = .error e) : g.verify cs = .error e := by
  unfold verify
  simp only [h, bind, Except.bind]

variable [LawfulVertexSet S]

theorem verifyPair_eq_ok_iff (a b : ℕ) :
    g.verifyPair c a b = .ok () ↔ g.adjacency.Adj a b := by
  unfold verifyPair
  rw [adj_iff, ← contains_iff]
  split_ifs with horder hadj
  · simp only [false_iff, contains_iff]
    exact fun h => absurd (lt_order_of_adj h) (not_lt.mpr horder)
  · simp [hadj]
  · simp [hadj]

theorem forM_verifyPair_eq_ok_iff (c : Clique) :
    (c.pairs.forM fun p => g.verifyPair c p.1 p.2) = .ok () ↔ c.Pairwise g.adjacency.Adj := by
  rw [forM_eq_ok_iff, ← Clique.forall_mem_pairs]
  exact forall₂_congr fun p _ => verifyPair_eq_ok_iff p.1 p.2

theorem verifyClique_eq_ok_iff (c : Clique) :
    g.verifyClique c = .ok () ↔ g.ListsMaximalClique c := by
  rw [verifyClique_eq]
  split_ifs with hlength
  · simp only [false_iff]
    exact fun h => absurd h.two_le_length (not_le.mpr hlength)
  · have hne : c ≠ [] := by
      rintro rfl
      simp at hlength
    cases hforM : c.pairs.forM fun p => g.verifyPair c p.1 p.2 with
    | error e =>
      simp only [reduceCtorEq, false_iff]
      intro h
      rw [(forM_verifyPair_eq_ok_iff c).mpr h.pairwise_adj] at hforM
      cases hforM
    | ok u =>
      have hadj := (forM_verifyPair_eq_ok_iff c).mp hforM
      have hnodup : c.Nodup := hadj.imp fun h => h.ne
      constructor
      · intro h
        refine ⟨not_lt.mp hlength, hnodup, hadj, (commonNeighbours_eq_nil_iff hne).mp ?_⟩
        cases hcommon : g.commonNeighbours c with
        | nil => rfl
        | cons x xs => simp [hcommon] at h
      · intro h
        simp [(commonNeighbours_eq_nil_iff hne).mpr h.maximal]

theorem forM_verifyClique_eq_ok_iff (cs : List Clique) :
    (cs.map Clique.sort).forM g.verifyClique = .ok () ↔ ∀ c ∈ cs, g.ListsMaximalClique c := by
  rw [forM_eq_ok_iff, List.forall_mem_map]
  refine forall₂_congr fun c _ => ?_
  rw [verifyClique_eq_ok_iff]
  exact ⟨fun h => h.perm c.sort_perm, fun h => h.perm c.sort_perm.symm⟩

theorem verify_of_listsMaximalClique {cs : List Clique} (h : ∀ c ∈ cs, g.ListsMaximalClique c) :
    g.verify cs =
      match Clique.repeated? (Clique.sortList (cs.map Clique.sort)) with
      | some c => .error (.violation (.duplicate c))
      | none => .ok () := by
  unfold verify
  simp only [(forM_verifyClique_eq_ok_iff cs).mpr h, checkContainment_sortList_eq_ok h, bind,
    Except.bind]
  cases Clique.repeated? (Clique.sortList (cs.map Clique.sort)) <;> rfl

theorem exists_verify_eq_error {cs : List Clique} (h : ¬ ∀ c ∈ cs, g.ListsMaximalClique c) :
    ∃ c e, g.verifyClique c = .error e ∧ g.verify cs = .error e := by
  cases hforM : (cs.map Clique.sort).forM g.verifyClique with
  | ok u => exact absurd ((forM_verifyClique_eq_ok_iff cs).mp hforM) h
  | error e =>
    obtain ⟨-, c, -, -, -, hc⟩ := (forM_eq_error_iff _ _ _).mp hforM
    exact ⟨c, e, hc, verify_of_forM_eq_error hforM⟩

theorem repeated?_eq_none_iff_pairwise {cs : List Clique} (h : ∀ c ∈ cs, c.Nodup) :
    Clique.repeated? (Clique.sortList (cs.map Clique.sort)) = none ↔
      cs.Pairwise fun c d => c.toFinset ≠ d.toFinset := by
  rw [Clique.repeated?_eq_none_iff (Clique.pairwise_sortList _),
    (Clique.sortList_perm _).nodup_iff, List.Nodup, List.pairwise_map]
  refine List.Pairwise.iff_of_mem fun {c d} hc hd => not_congr ?_
  rw [Clique.sort_eq_sort_iff, List.toFinset_eq_iff_perm_dedup, (h c hc).dedup, (h d hd).dedup]

/-- Verification accepts a list of cliques exactly when each names two or more distinct vertices
that are adjacent to each other and have no common neighbour, and no two name the same vertices. It
never finds a clique contained in another: where every clique passes on its own, so does the check
for containment. -/
theorem verify_eq_ok_iff (g : Graph S) (cs : List Clique) :
    (g.verify cs = .ok () ↔
      (∀ c ∈ cs, 2 ≤ c.length ∧ c.Nodup ∧ c.Pairwise g.adjacency.Adj ∧
        ∀ x < g.order, x ∉ c → ∃ v ∈ c, ¬ g.adjacency.Adj v x) ∧
      cs.Pairwise fun c d => c.toFinset ≠ d.toFinset) ∧
    (∀ inner outer, g.verify cs ≠ .error (.violation (.contained inner outer))) ∧
    ((cs.map Clique.sort).forM g.verifyClique = .ok () →
      Clique.checkContainment (Clique.sortList (cs.map Clique.sort)) g.order = .ok ()) := by
  have hlists : (∀ c ∈ cs, 2 ≤ c.length ∧ c.Nodup ∧ c.Pairwise g.adjacency.Adj ∧
      ∀ x < g.order, x ∉ c → ∃ v ∈ c, ¬ g.adjacency.Adj v x) ↔
      ∀ c ∈ cs, g.ListsMaximalClique c :=
    forall₂_congr fun c _ =>
      ⟨fun ⟨hlength, hnodup, hadj, hmax⟩ => ⟨hlength, hnodup, hadj, hmax⟩,
        fun h => ⟨h.two_le_length, h.nodup, h.pairwise_adj, h.maximal⟩⟩
  rw [hlists, ← and_assoc]
  refine ⟨?_, fun hpass =>
    checkContainment_sortList_eq_ok ((forM_verifyClique_eq_ok_iff cs).mp hpass)⟩
  by_cases hall : ∀ c ∈ cs, g.ListsMaximalClique c
  · rw [verify_of_listsMaximalClique hall,
      ← repeated?_eq_none_iff_pairwise fun c hc => (hall c hc).nodup]
    cases Clique.repeated? (Clique.sortList (cs.map Clique.sort)) with
    | none => simpa using hall
    | some c => simp
  · obtain ⟨c, e, hc, hverify⟩ := exists_verify_eq_error hall
    refine ⟨by simp [hverify, hall], fun inner outer h => ?_⟩
    rw [hverify] at h
    exact verifyClique_ne_contained c inner outer (hc.trans h)

/-- The triangles of the diamond are accepted, so they differ and nothing extends them. -/
theorem verify_eq_ok_iff_diamond :
    diamond.verify [[2, 1, 0], [1, 3, 2]] = .ok () ∧
      ([2, 1, 0] : Clique).toFinset ≠ [1, 3, 2].toFinset ∧
      ∃ v ∈ ([2, 1, 0] : Clique), ¬ diamond.adjacency.Adj v 3 := by
  have hok : diamond.verify [[2, 1, 0], [1, 3, 2]] = .ok () := by cbv
  obtain ⟨hall, hpairwise⟩ := (verify_eq_ok_iff diamond [[2, 1, 0], [1, 3, 2]]).1.mp hok
  exact ⟨hok, List.rel_of_pairwise_cons hpairwise (by simp),
    (hall [2, 1, 0] (by simp)).2.2.2 3 (by decide +kernel) (by simp)⟩

end Graph
end MaximalCliques

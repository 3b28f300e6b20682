import MaximalCliques.Proofs.Clique.Verification

/-!
# What verification says about a list that it refuses

The first clique of the list that is not a maximal one decides, by the first check that it fails:
its size, then its pairs of places in lexicographic order, then its common neighbours. If there is
no such clique, the least one that is listed twice is named. In a sorted clique an unknown vertex in
front means that all vertices are unknown, and behind a known vertex it shows up as a missing edge.
-/

namespace MaximalCliques

open VertexSet LawfulVertexSet

variable {S : Type} [VertexSet S]

namespace Clique

theorem pairs_eq_append (vs : Clique) {i j : ℕ} (hij : i < j) (hj : j < vs.length) :
    ∃ before after, vs.pairs = before ++ (vs[i], vs[j]) :: after ∧
      ∀ p ∈ before, ∃ (k l : ℕ) (hkl : k < l) (hl : l < vs.length),
        (k < i ∨ k = i ∧ l < j) ∧ p = (vs[k], vs[l]) := by
  induction vs generalizing i j with
  | nil => simp at hj
  | cons v ws ih =>
    obtain ⟨j, rfl⟩ : ∃ m, j = m + 1 := ⟨j - 1, by omega⟩
    have hj : j < ws.length := by simpa using hj
    cases i with
    | zero =>
      have hsplit : ws.map (v, ·) =
          (ws.take j).map (v, ·) ++ (v, ws[j]) :: (ws.drop (j + 1)).map (v, ·) := by
        rw [← List.map_cons, ← List.map_append, ← List.drop_eq_getElem_cons hj,
          List.take_append_drop]
      refine ⟨(ws.take j).map (v, ·), (ws.drop (j + 1)).map (v, ·) ++ pairs ws, ?_, fun p hp => ?_⟩
      · rw [pairs, hsplit, List.append_assoc]
        rfl
      · obtain ⟨w, hw, rfl⟩ := List.mem_map.mp hp
        obtain ⟨l, hl, rfl⟩ := List.mem_take_iff_getElem.mp hw
        exact ⟨0, l + 1, by omega, by simp; omega, by omega, rfl⟩
    | succ i =>
      obtain ⟨before, after, hpairs, hbefore⟩ := ih (Nat.lt_of_succ_lt_succ hij) hj
      refine ⟨ws.map (v, ·) ++ before, after, by simp [pairs, hpairs], fun p hp => ?_⟩
      rcases List.mem_append.mp hp with hp | hp
      · obtain ⟨w, hw, rfl⟩ := List.mem_map.mp hp
        obtain ⟨l, hl, rfl⟩ := List.mem_iff_getElem.mp hw
        exact ⟨0, l + 1, by omega, by simp; omega, by omega, rfl⟩
      · obtain ⟨k, l, hkl, hl, hlt, rfl⟩ := hbefore p hp
        exact ⟨k + 1, l + 1, by omega, by simp; omega, by omega, rfl⟩

theorem exists_first_pair {R : ℕ → ℕ → Prop} {vs : Clique} (h : ¬ vs.Pairwise R) :
    ∃ (i j : ℕ) (hij : i < j) (hj : j < vs.length), ¬ R vs[i] vs[j] ∧
      ∀ (k l : ℕ) (hkl : k < l) (hl : l < vs.length), k < i ∨ k = i ∧ l < j → R vs[k] vs[l] := by
  let bad : Set (ℕ ×ₗ ℕ) := {p | ∃ (hij : (ofLex p).1 < (ofLex p).2)
    (hj : (ofLex p).2 < vs.length), ¬ R vs[(ofLex p).1] vs[(ofLex p).2]}
  obtain ⟨i, j, hi, hj, hij, hnot⟩ : ∃ (i j : ℕ) (hi : i < vs.length) (hj : j < vs.length)
      (hij : i < j), ¬ R vs[i] vs[j] := by
    simpa [List.pairwise_iff_getElem] using h
  obtain ⟨p, ⟨hij, hj, hnot⟩, hmin⟩ :=
    WellFounded.has_min wellFounded_lt bad ⟨toLex (i, j), hij, hj, hnot⟩
  refine ⟨_, _, hij, hj, hnot, fun k l hkl hl hlt => ?_⟩
  by_contra hbad
  exact hmin (toLex (k, l)) ⟨hkl, hl, hbad⟩ (Prod.Lex.lt_iff.mpr hlt)

theorem isLeast_of_repeated? {cs : List Clique} (h : cs.Pairwise (· ≤ ·)) {d : Clique}
    (hd : repeated? cs = some d) : IsLeast {d | 2 ≤ cs.count d} d := by
  induction cs with
  | nil => simp [repeated?] at hd
  | cons c cs ih =>
    obtain ⟨hle, hcs⟩ := List.pairwise_cons.mp h
    rw [repeated?] at hd
    split_ifs at hd with hhead
    · obtain rfl := Option.some.inj hd
      constructor
      · have hpos := List.count_pos_iff.mpr (List.mem_of_mem_head? hhead)
        rw [Set.mem_ofPred_eq, List.count_cons_self]
        omega
      · intro d hcount
        have hmem : d ∈ c :: cs := List.count_pos_iff.mp (two_pos.trans_le hcount)
        rcases List.mem_cons.mp hmem with rfl | hmem
        · exact le_rfl
        · exact hle d hmem
    · obtain ⟨hcount, hlower⟩ := ih hcs hd
      refine ⟨le_trans hcount List.count_le_count_cons, fun d' hd' => ?_⟩
      have hne : d' ≠ c := by
        rintro rfl
        rw [Set.mem_ofPred_eq, List.count_cons_self] at hd'
        exact hhead (head?_eq_some_of_mem h (List.count_pos_iff.mp (by omega)))
      rw [Set.mem_ofPred_eq, List.count_cons_of_ne hne.symm] at hd'
      exact hlower hd'

theorem repeated?_eq_some_iff {cs : List Clique} (h : cs.Pairwise (· ≤ ·)) (d : Clique) :
    repeated? cs = some d ↔ IsLeast {d | 2 ≤ cs.count d} d := by
  refine ⟨isLeast_of_repeated? h, fun hd => ?_⟩
  cases hrepeated : repeated? cs with
  | none =>
    have hnodup := (repeated?_eq_none_iff h).mp hrepeated
    exact absurd hd.1 (not_le.mpr (Nat.lt_succ_of_le (List.nodup_iff_count_le_one.mp hnodup d)))
  | some d' => rw [(isLeast_of_repeated? h hrepeated).unique hd]

end Clique

namespace Graph

/-- What is wrong with a sorted clique, by the first check that it fails. -/
inductive CliqueFault (g : Graph S) (vs : Clique) : Rejection → Prop
  | tooSmall (hlength : vs.length < 2) : CliqueFault g vs (.violation (.tooSmall vs))
  | unknownVertex {v : ℕ} (hlength : 2 ≤ vs.length) (hhead : vs.head? = some v)
      (hunknown : ∀ w ∈ vs, g.order ≤ w) : CliqueFault g vs (.unknownVertex v)
  | notAClique {i j : ℕ} (hij : i < j) (hj : j < vs.length) (hknown : ∃ w ∈ vs, w < g.order)
      (hnot : ¬ g.adjacency.Adj vs[i] vs[j])
      (hfirst : ∀ (k l : ℕ) (hkl : k < l) (hl : l < vs.length), k < i ∨ k = i ∧ l < j →
        g.adjacency.Adj vs[k] vs[l]) :
      CliqueFault g vs (.violation (.notAClique vs vs[i] vs[j]))
  | notMaximal {x : ℕ} (hlength : 2 ≤ vs.length) (hadj : vs.Pairwise g.adjacency.Adj)
      (hleast : IsLeast {x | ∀ v ∈ vs, g.adjacency.Adj v x} x) (hnot : x ∉ vs) :
      CliqueFault g vs (.violation (.notMaximal vs x))

/-- What is wrong with a list of cliques. -/
inductive Diagnosis (g : Graph S) (cs : List Clique) : Rejection → Prop
  | faulty {before after : List Clique} {c : Clique} {e : Rejection}
      (hsplit : cs = before ++ c :: after) (hbefore : ∀ b ∈ before, g.ListsMaximalClique b)
      (hc : ¬ g.ListsMaximalClique c) (hfault : g.CliqueFault c.sort e) : Diagnosis g cs e
  | duplicate {d : Clique} (hall : ∀ c ∈ cs, g.ListsMaximalClique c)
      (hleast : IsLeast {d | 2 ≤ (cs.map Clique.sort).count d} d) :
      Diagnosis g cs (.violation (.duplicate d))

variable {g : Graph S} {c : Clique} {e : Rejection}

theorem foldl_intersection_sublist (vs common : List ℕ) :
    (vs.foldl (fun common w => SortedList.intersection common (g.sortedNeighbours w))
      common).Sublist common := by
  induction vs generalizing common with
  | nil => exact List.Sublist.refl common
  | cons v vs ih => exact (ih _).trans (SortedList.intersection_sublist common _)

theorem pairwise_commonNeighbours (c : Clique) : (g.commonNeighbours c).Pairwise (· ≤ ·) := by
  cases c with
  | nil => exact List.Pairwise.nil
  | cons v vs => exact (pairwise_sortedNeighbours v).sublist (foldl_intersection_sublist vs _)

theorem exists_commonNeighbours_eq_cons (hc : c ≠ []) {x : ℕ}
    (hleast : IsLeast {x | ∀ v ∈ c, g.adjacency.Adj v x} x) :
    ∃ xs, g.commonNeighbours c = x :: xs := by
  have hx : x ∈ g.commonNeighbours c := (mem_commonNeighbours hc x).mpr hleast.1
  cases hcommon : g.commonNeighbours c with
  | nil => simp [hcommon] at hx
  | cons y ys =>
    have hsorted := g.pairwise_commonNeighbours c
    rw [hcommon] at hx hsorted
    have hxy : x ≤ y := hleast.2 ((mem_commonNeighbours hc y).mp (by simp [hcommon]))
    have hyx : y ≤ x := by
      rcases List.mem_cons.mp hx with rfl | hx
      · exact le_rfl
      · exact (List.pairwise_cons.mp hsorted).1 x hx
    exact ⟨ys, by rw [le_antisymm hxy hyx]⟩

/-- In a sorted clique that is not wholly unknown, the first vertex of the first pair that is not
adjacent is known. -/
theorem lt_order_of_first_pair {vs : Clique} (hsorted : vs.Pairwise (· ≤ ·))
    (hknown : ∃ w ∈ vs, w < g.order) {i j : ℕ} (hij : i < j) (hj : j < vs.length)
    (hfirst : ∀ (k l : ℕ) (hkl : k < l) (hl : l < vs.length), k < i ∨ k = i ∧ l < j →
      g.adjacency.Adj vs[k] vs[l]) : vs[i] < g.order := by
  cases i with
  | zero =>
    obtain ⟨w, hw, hlt⟩ := hknown
    obtain ⟨m, hm, rfl⟩ := List.mem_iff_getElem.mp hw
    rcases Nat.eq_zero_or_pos m with rfl | hpos
    · exact hlt
    · exact (List.pairwise_iff_getElem.mp hsorted 0 m (by omega) hm hpos).trans_lt hlt
  | succ i =>
    have hadj := hfirst 0 (i + 1) (by omega) (by omega) (Or.inl (by omega))
    exact lt_order_of_adj hadj.symm

theorem exists_eq_cons_cons {v : ℕ} (hlength : 2 ≤ c.length) (hhead : c.head? = some v) :
    ∃ w ws, c = v :: w :: ws := by
  match c, hlength, hhead with
  | _ :: w :: ws, _, rfl => exact ⟨w, ws, rfl⟩

theorem exists_isLeast_adj (hlength : 2 ≤ c.length) (hadj : c.Pairwise g.adjacency.Adj)
    (h : ¬ g.ListsMaximalClique c) : ∃ x, IsLeast {x | ∀ v ∈ c, g.adjacency.Adj v x} x := by
  obtain ⟨x, hx⟩ : ∃ x, ∀ v ∈ c, g.adjacency.Adj v x := by
    by_contra! hnone
    exact h ⟨hlength, hadj.imp fun h => h.ne, hadj, fun x _ _ => hnone x⟩
  exact ⟨_, isLeast_csInf ⟨x, hx⟩⟩

theorem exists_cliqueFault (h : ¬ g.ListsMaximalClique c) : ∃ e, g.CliqueFault c e := by
  by_cases hlength : c.length < 2
  · exact ⟨_, .tooSmall hlength⟩
  have hlength : 2 ≤ c.length := not_lt.mp hlength
  by_cases hknown : ∃ w ∈ c, w < g.order
  · by_cases hadj : c.Pairwise g.adjacency.Adj
    · obtain ⟨x, hleast⟩ := exists_isLeast_adj hlength hadj h
      exact ⟨_, .notMaximal hlength hadj hleast fun hx => (hleast.1 x hx).ne rfl⟩
    · obtain ⟨i, j, hij, hj, hnot, hfirst⟩ := Clique.exists_first_pair hadj
      exact ⟨_, .notAClique hij hj hknown hnot hfirst⟩
  · push Not at hknown
    have hne : c ≠ [] := List.ne_nil_of_length_pos (by omega)
    exact ⟨_, .unknownVertex hlength (List.head?_eq_some_head hne) hknown⟩

variable [LawfulVertexSet S]

theorem verifyPair_of_not_adj {a b : ℕ} (ha : a < g.order) (hnot : ¬ g.adjacency.Adj a b) :
    g.verifyPair c a b = .error (.violation (.notAClique c a b)) := by
  unfold verifyPair
  rw [if_neg (not_le.mpr ha), if_neg (by rwa [contains_iff])]

theorem CliqueFault.verifyClique_eq {vs : Clique} (h : g.CliqueFault vs e)
    (hsorted : vs.Pairwise (· ≤ ·)) : g.verifyClique vs = .error e := by
  rw [Graph.verifyClique_eq]
  cases h with
  | tooSmall hlength => rw [if_pos hlength]
  | @unknownVertex v hlength hhead hunknown =>
    rw [if_neg (not_lt.mpr hlength)]
    obtain ⟨w, ws, rfl⟩ := exists_eq_cons_cons hlength hhead
    have hpair : g.verifyPair (v :: w :: ws) v w = .error (.unknownVertex v) :=
      if_pos (hunknown v List.mem_cons_self)
    rw [Clique.pairs, List.map_cons, List.cons_append,
      forM_cons_of_error (fun p : ℕ × ℕ => g.verifyPair (v :: w :: ws) p.1 p.2) hpair]
  | @notAClique i j hij hj hknown hnot hfirst =>
    have hi := lt_order_of_first_pair hsorted hknown hij hj hfirst
    obtain ⟨before, after, hpairs, hbefore⟩ := vs.pairs_eq_append hij hj
    have hforM : (vs.pairs.forM fun p => g.verifyPair vs p.1 p.2) =
        .error (.violation (.notAClique vs vs[i] vs[j])) := by
      refine (forM_eq_error_iff _ _ _).mpr ⟨before, _, after, hpairs, fun p hp => ?_,
        verifyPair_of_not_adj hi hnot⟩
      obtain ⟨k, l, hkl, hl, hlt, rfl⟩ := hbefore p hp
      exact (verifyPair_eq_ok_iff _ _).mpr (hfirst k l hkl hl hlt)
    rw [if_neg (by omega), hforM]
  | notMaximal hlength hadj hleast hnot =>
    have hne : vs ≠ [] := by
      rintro rfl
      simp at hlength
    obtain ⟨xs, hcommon⟩ := exists_commonNeighbours_eq_cons hne hleast
    rw [if_neg (not_lt.mpr hlength), (forM_verifyPair_eq_ok_iff vs).mpr hadj, hcommon]

theorem verifyClique_eq_error_iff (hsorted : c.Pairwise (· ≤ ·)) :
    g.verifyClique c = .error e ↔ g.CliqueFault c e := by
  refine ⟨fun h => ?_, fun h => h.verifyClique_eq hsorted⟩
  have hnot : ¬ g.ListsMaximalClique c := by
    rw [← verifyClique_eq_ok_iff, h]
    nofun
  obtain ⟨e', hfault⟩ := exists_cliqueFault hnot
  rw [hfault.verifyClique_eq hsorted] at h
  exact Except.error.inj h ▸ hfault

theorem CliqueFault.not_listsMaximalClique (h : g.CliqueFault c.sort e) :
    ¬ g.ListsMaximalClique c := by
  intro hc
  have hok := (verifyClique_eq_ok_iff c.sort).mpr (hc.perm c.sort_perm.symm)
  cases hok.symm.trans (h.verifyClique_eq c.pairwise_sort)

theorem forM_verifyClique_eq_error_iff (cs : List Clique) :
    (cs.map Clique.sort).forM g.verifyClique = .error e ↔
      ∃ before c after, cs = before ++ c :: after ∧ (∀ b ∈ before, g.ListsMaximalClique b) ∧
        g.CliqueFault c.sort e := by
  rw [forM_eq_error_iff]
  constructor
  · rintro ⟨_, _, _, hsplit, hbefore, hc⟩
    obtain ⟨before, rest, rfl, rfl, hrest⟩ := List.map_eq_append_iff.mp hsplit
    obtain ⟨c, after, rfl, rfl, rfl⟩ := List.map_eq_cons_iff.mp hrest
    refine ⟨before, c, after, rfl, ?_, (verifyClique_eq_error_iff c.pairwise_sort).mp hc⟩
    rwa [← forM_verifyClique_eq_ok_iff, forM_eq_ok_iff]
  · rintro ⟨before, c, after, rfl, hbefore, hfault⟩
    refine ⟨before.map Clique.sort, c.sort, after.map Clique.sort, by simp, ?_,
      hfault.verifyClique_eq c.pairwise_sort⟩
    rwa [← forM_eq_ok_iff, forM_verifyClique_eq_ok_iff]

theorem verify_eq_error_iff_isLeast {cs : List Clique} (hall : ∀ c ∈ cs, g.ListsMaximalClique c) :
    g.verify cs = .error e ↔
      ∃ d, IsLeast {d | 2 ≤ (cs.map Clique.sort).count d} d ∧ e = .violation (.duplicate d) := by
  have hrepeated := Clique.repeated?_eq_some_iff (Clique.pairwise_sortList (cs.map Clique.sort))
  simp only [(Clique.sortList_perm _).count_eq] at hrepeated
  rw [verify_of_listsMaximalClique hall]
  simp only [← hrepeated]
  cases Clique.repeated? (Clique.sortList (cs.map Clique.sort)) with
  | none => simp
  | some d => simp [eq_comm]

/-- A list of cliques is refused for the first clique that is not maximal, by the first check that
this one fails, or if there is none, for the least clique that is listed twice. -/
theorem verify_eq_error_iff (g : Graph S) (cs : List Clique) (e : Rejection) :
    g.verify cs = .error e ↔ g.Diagnosis cs e := by
  constructor
  · intro h
    cases hforM : (cs.map Clique.sort).forM g.verifyClique with
    | ok u =>
      have hall := (forM_verifyClique_eq_ok_iff cs).mp hforM
      obtain ⟨d, hleast, rfl⟩ := (verify_eq_error_iff_isLeast hall).mp h
      exact .duplicate hall hleast
    | error e' =>
      obtain rfl := Except.error.inj (h.symm.trans (verify_of_forM_eq_error hforM))
      obtain ⟨before, c, after, hsplit, hbefore, hfault⟩ :=
        (forM_verifyClique_eq_error_iff cs).mp hforM
      exact .faulty hsplit hbefore hfault.not_listsMaximalClique hfault
  · intro h
    cases h with
    | @faulty before after c _ hsplit hbefore _ hfault =>
      exact verify_of_forM_eq_error
        ((forM_verifyClique_eq_error_iff cs).mpr ⟨before, c, after, hsplit, hbefore, hfault⟩)
    | @duplicate d hall hleast =>
      exact (verify_eq_error_iff_isLeast hall).mpr ⟨d, hleast, rfl⟩

/-- The second list is refused for its first two vertices in ascending order. That one of them is
known keeps the unknown ones from being asked for their neighbours. -/
theorem verify_eq_error_iff_diamond :
    diamond.verify [[2, 1, 0], [9, 3, 8], [1]] =
        .error (.violation (.notAClique [3, 8, 9] 3 8)) ∧
      diamond.Diagnosis [[2, 1, 0], [9, 3, 8], [1]] (.violation (.notAClique [3, 8, 9] 3 8)) := by
  have herror : diamond.verify [[2, 1, 0], [9, 3, 8], [1]] =
      .error (.violation (.notAClique [3, 8, 9] 3 8)) := by cbv
  exact ⟨herror, (verify_eq_error_iff diamond _ _).mp herror⟩

end Graph
end MaximalCliques

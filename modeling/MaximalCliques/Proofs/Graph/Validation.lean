import Mathlib.Combinatorics.SimpleGraph.Basic
import Mathlib.Data.Finset.Lattice.Fold
import Mathlib.Data.Set.Card
import MaximalCliques.Proofs.Graph.Edges
import MaximalCliques.Proofs.VertexSet.Representations

/-!
# Validation of tables

The rows of a table are checked one by one, and no row waits for another, so the faulty row that is
met first depends on the order in which they are taken. Whatever this order, a table passes exactly
when it keeps the rules of a simple graph, and otherwise the first fault of some faulty row is the
error. The sum of the degrees is even by then, since every edge adds two to it, and half of it counts
the edges.
-/

namespace MaximalCliques

open VertexSet LawfulVertexSet

variable {S : Type} [VertexSet S]

namespace Table

/-- What is wrong with `w` as an entry of the row of `v`, by the first rule that it breaks. -/
inductive EntryFault (t : Table S) (v w : ℕ) : Error → Prop
  | selfLoop (heq : w = v) : EntryFault t v w (.selfLoop v)
  | outOfRange (hne : w ≠ v) (hle : t.order ≤ w) : EntryFault t v w (.outOfRange w t.order)
  | asymmetric (hne : w ≠ v) (hlt : w < t.order) (hnot : v ∉ toList (t.row w)) :
    EntryFault t v w (.asymmetric v w)

def FirstFault (t : Table S) (v : ℕ) (e : Error) : Prop :=
  ∃ before w after, toList (t.row v) = before ++ w :: after ∧
    (∀ u ∈ before, ∀ e, ¬ t.EntryFault v u e) ∧ t.EntryFault v w e

theorem FirstFault.ne_oddDegreeSum {t : Table S} {v : ℕ} {e : Error} (h : t.FirstFault v e)
    {sum : ℕ} : e ≠ .oddDegreeSum sum := by
  obtain ⟨-, w, -, -, -, hw⟩ := h
  rintro rfl
  cases hw

variable [LawfulVertexSet S] (t : Table S)

theorem entryFault?_eq_some_iff (v w : ℕ) (e : Error) :
    t.entryFault? v w = some e ↔ t.EntryFault v w e := by
  constructor
  · intro h
    unfold entryFault? at h
    split_ifs at h with heq hle hmem
    · cases h
      exact .selfLoop heq
    · cases h
      exact .outOfRange heq hle
    · cases h
      rw [contains_iff] at hmem
      exact .asymmetric heq (not_le.mp hle) hmem
  · intro h
    unfold entryFault?
    cases h with
    | selfLoop heq => rw [if_pos heq]
    | outOfRange hne hle => rw [if_neg hne, if_pos hle]
    | asymmetric hne hlt hnot =>
      rw [if_neg hne, if_neg (not_le.mpr hlt), if_neg (by rwa [contains_iff])]

theorem rowFault?_eq_some_iff (v : ℕ) (e : Error) :
    t.rowFault? v = some e ↔ t.FirstFault v e := by
  unfold rowFault? FirstFault
  simp only [List.findSome?_eq_some_iff, Option.eq_none_iff_forall_not_mem, Option.mem_def,
    entryFault?_eq_some_iff]
  grind

/-- Checking every row once, in any order, finds no fault if the rules are kept. -/
theorem findSome?_rowFault?_eq_none_iff {rows : List ℕ} (hrows : rows.Perm (List.range t.order)) :
    rows.findSome? t.rowFault? = none ↔ t.Valid := by
  rw [← t.fault?_eq_none_iff, fault?, List.findSome?_eq_none_iff, List.findSome?_eq_none_iff]
  simp only [hrows.mem_iff]

end Table

namespace Graph

section Checking

variable [LawfulVertexSet S] (t : Table S) {rows : List ℕ}

/-- The graph of a table whose rows are checked in the given order. -/
def ofTableInOrder (rows : List ℕ) (hrows : rows.Perm (List.range t.order)) :
    Except Error (Graph S) :=
  match h : rows.findSome? t.rowFault? with
  | some fault => .error fault
  | none =>
    if t.degreeSum % 2 = 1 then .error (.oddDegreeSum t.degreeSum)
    else .ok ⟨t, (t.findSome?_rowFault?_eq_none_iff hrows).mp h⟩

theorem ofTable_eq_ofTableInOrder :
    ofTable t = ofTableInOrder t (List.range t.order) (List.Perm.refl _) := rfl

variable {t} (hrows : rows.Perm (List.range t.order))

theorem ofTableInOrder_of_fault {fault : Error} (h : rows.findSome? t.rowFault? = some fault) :
    ofTableInOrder t rows hrows = .error fault := by
  unfold ofTableInOrder
  split
  · rename_i first hfirst
    rw [h] at hfirst
    rw [Option.some.inj hfirst]
  · rename_i hnone
    rw [h] at hnone
    cases hnone

theorem degreeSum_mod_two_ne_one (h : t.Valid) : t.degreeSum % 2 ≠ 1 := by
  have hsum : t.degreeSum = 2 * (⟨t, h⟩ : Graph S).edges.length := degreeSum_eq ⟨t, h⟩
  omega

theorem ofTableInOrder_of_valid (h : t.Valid) : ofTableInOrder t rows hrows = .ok ⟨t, h⟩ := by
  have hfault := (t.findSome?_rowFault?_eq_none_iff hrows).mpr h
  unfold ofTableInOrder
  split
  · rename_i fault hsome
    rw [hfault] at hsome
    cases hsome
  · rw [if_neg (degreeSum_mod_two_ne_one h)]

theorem ofTable_of_valid (h : t.Valid) : ofTable t = .ok ⟨t, h⟩ :=
  ofTableInOrder_of_valid (List.Perm.refl _) h

theorem exists_faulty_row (h : ¬ t.Valid) :
    ∃ v < t.order, ∃ e, t.FirstFault v e ∧ ofTableInOrder t rows hrows = .error e := by
  rw [← t.findSome?_rowFault?_eq_none_iff hrows] at h
  obtain ⟨e, he⟩ := Option.ne_none_iff_exists'.mp h
  obtain ⟨before, v, after, hsplit, hv, -⟩ := List.findSome?_eq_some_iff.mp he
  have hmem : v ∈ rows := by simp [hsplit]
  exact ⟨v, List.mem_range.mp (hrows.mem_iff.mp hmem), e, (t.rowFault?_eq_some_iff v e).mp hv,
    ofTableInOrder_of_fault hrows he⟩

end Checking

/-! ## Counts -/

section Counts

variable (g : Graph S)

theorem edgeSet_eq_map_edges :
    g.adjacency.edgeSet = ((g.edges.map fun e => s(e.1, e.2)).toFinset : Set (Sym2 ℕ)) := by
  ext e
  induction e using Sym2.ind with
  | _ v w =>
    rw [SimpleGraph.mem_edgeSet, List.coe_toFinset, Set.mem_ofPred_eq, List.mem_map]
    constructor
    · intro hadj
      rcases lt_or_gt_of_ne hadj.ne with hlt | hlt
      · exact ⟨(w, v), (g.mem_edges w v).mpr ⟨hlt, hadj.symm⟩, Sym2.eq_swap⟩
      · exact ⟨(v, w), (g.mem_edges v w).mpr ⟨hlt, hadj⟩, rfl⟩
    · rintro ⟨⟨a, b⟩, hmem, heq⟩
      have hadj := ((g.mem_edges a b).mp hmem).2
      rcases Sym2.eq_iff.mp heq with ⟨rfl, rfl⟩ | ⟨rfl, rfl⟩
      · exact hadj
      · exact hadj.symm

theorem maxDegree_eq_sup : g.maxDegree = (Finset.range g.order).sup g.degree := by
  unfold maxDegree
  rw [degrees_eq_map, max?_getD_map, vertices, List.toFinset_range]

variable [LawfulVertexSet S]

theorem size_eq_length_edges : g.size = g.edges.length := by
  unfold size
  have hsum := g.degreeSum_eq
  omega

theorem nodup_map_edges : (g.edges.map fun e => s(e.1, e.2)).Nodup := by
  refine g.nodup_edges.map_on fun e he f hf heq => ?_
  have hlt := (g.lt_order_of_mem_edges he).1
  have hlt' := (g.lt_order_of_mem_edges hf).1
  rcases Sym2.eq_iff.mp heq with ⟨hfst, hsnd⟩ | ⟨hfst, hsnd⟩
  · exact Prod.ext hfst hsnd
  · omega

theorem encard_edgeSet : g.adjacency.edgeSet.encard = g.size := by
  rw [edgeSet_eq_map_edges, Set.encard_coe_eq_coe_finsetCard,
    List.toFinset_card_of_nodup g.nodup_map_edges, List.length_map, size_eq_length_edges]

end Counts

/-! ## Conversion -/

variable [LawfulVertexSet S] {T : Type} [VertexSet T] [LawfulVertexSet T]

section Conversion

variable (g : Graph S)

theorem mem_neighbours_convert (v w : ℕ) :
    w ∈ toList ((g.convert : Graph T).neighbours v) ↔ w ∈ toList (g.neighbours v) :=
  mem_row_map g.toTable v w

theorem order_convert : (g.convert : Graph T).order = g.order := by
  simp [convert, Table.order]

theorem degrees_congr {g : Graph S} {h : Graph T} (horder : h.order = g.order)
    (hrows : ∀ v, SameMembers (h.neighbours v) (g.neighbours v)) : h.degrees = g.degrees := by
  simp only [degrees_eq_map, vertices, horder]
  exact List.map_congr_left fun v _ => (hrows v).size_eq

theorem degrees_convert : (g.convert : Graph T).degrees = g.degrees :=
  degrees_congr g.order_convert g.mem_neighbours_convert

end Conversion

variable (S T) in
/-- Whatever the order in which its rows are checked, a table is accepted exactly when it keeps the
rules, and it is the table of the graph. The sum of its degrees is never found odd. A table that is
not accepted ends with the first fault of a faulty row, hence of the only one if there are no others.

Every graph has as many edges as its size says, it lists each of them once with the higher vertex in
front, and its greatest degree is that of its largest row. Conversion keeps all of this. -/
theorem ofTable_exact :
    (∀ t : Table S, ofTable t = ofTableInOrder t (List.range t.order) (List.Perm.refl _)) ∧
    (∀ (t : Table S) (rows : List ℕ) (hrows : rows.Perm (List.range t.order)),
      ((∃ g, ofTableInOrder t rows hrows = .ok g) ↔ t.Valid) ∧
      (∀ g, ofTableInOrder t rows hrows = .ok g → g.toTable = t) ∧
      (∀ sum, ofTableInOrder t rows hrows ≠ .error (.oddDegreeSum sum)) ∧
      ∀ e, ofTableInOrder t rows hrows = .error e →
        (∃ v < t.order, t.FirstFault v e) ∧
        ∀ v, (∀ u e', t.FirstFault u e' → u = v) → t.FirstFault v e) ∧
    ∀ g : Graph S,
      g.adjacency.edgeSet.encard = g.size ∧
      (g.edges.Nodup ∧ ∀ v w, (v, w) ∈ g.edges ↔ w < v ∧ g.adjacency.Adj v w) ∧
      g.edges.length = g.size ∧
      g.maxDegree = (Finset.range g.order).sup g.degree ∧
      (g.convert : Graph T).order = g.order ∧
      (g.convert : Graph T).size = g.size ∧
      (g.convert : Graph T).maxDegree = g.maxDegree ∧
      ∀ v w, w ∈ toList ((g.convert : Graph T).neighbours v) ↔ w ∈ toList (g.neighbours v) := by
  refine ⟨ofTable_eq_ofTableInOrder, fun t rows hrows => ?_, fun g => ?_⟩
  · by_cases hvalid : t.Valid
    · rw [ofTableInOrder_of_valid hrows hvalid]
      refine ⟨⟨fun _ => hvalid, fun _ => ⟨_, rfl⟩⟩, fun g hg => ?_, by simp, by simp⟩
      cases hg
      rfl
    · obtain ⟨v, hv, e, hfault, herror⟩ := exists_faulty_row hrows hvalid
      rw [herror]
      refine ⟨by simp [hvalid], by simp, fun sum hsum => ?_, fun e' he' => ?_⟩
      · cases hsum
        exact hfault.ne_oddDegreeSum rfl
      · cases he'
        refine ⟨⟨v, hv, hfault⟩, fun u honly => ?_⟩
        rwa [← honly v e hfault]
  · have hdegrees := g.degrees_convert (T := T)
    refine ⟨g.encard_edgeSet, ⟨g.nodup_edges, g.mem_edges⟩, g.size_eq_length_edges.symm,
      g.maxDegree_eq_sup, g.order_convert, ?_, ?_, g.mem_neighbours_convert⟩
    · simp only [size, Table.degreeSum, hdegrees]
    · simp only [maxDegree, hdegrees]

/-- Two rows with faults: vertex 7 is out of range, and vertex 2 lists itself. -/
def faultyTable : Table IndexedSet := ⟨#[ofList [1, 7, 0], ofList [0], ofList [2, 9]]⟩

theorem ofTable_exact_faultyTable :
    [2, 1, 0].Perm (List.range faultyTable.order) ∧
      ofTable faultyTable = .error (.outOfRange 7 3) ∧
      (∃ v < 3, faultyTable.FirstFault v (.selfLoop 2)) ∧
      diamond.adjacency.edgeSet.encard = 5 ∧
      (diamond.convert : Graph IndexedSet).size = 5 := by
  have hrows : [2, 1, 0].Perm (List.range faultyTable.order) := by decide
  have hlast : ofTableInOrder faultyTable [2, 1, 0] hrows = .error (.selfLoop 2) := by rfl
  have hsize : diamond.size = 5 := by decide +kernel
  obtain ⟨-, hcheck, -⟩ := ofTable_exact IndexedSet DenseSet
  obtain ⟨-, -, hgraph⟩ := ofTable_exact DenseSet IndexedSet
  obtain ⟨-, -, -, hfault⟩ := hcheck faultyTable [2, 1, 0] hrows
  obtain ⟨hcount, -, -, -, -, hconvert, -⟩ := hgraph diamond
  refine ⟨hrows, by rfl, (hfault _ hlast).1, ?_, ?_⟩
  · rw [hcount, hsize]
    rfl
  · rw [hconvert, hsize]

end Graph
end MaximalCliques

import Mathlib.Data.Finset.Max
import Mathlib.Data.Finset.Sort
import MaximalCliques.Proofs.VertexSet.Program
import MaximalCliques.VertexSet.Dense

/-!
# Bitmaps stand for finite sets

Finite sets of numbers, listed in ascending order and popped from the top, are themselves a
representation of vertex sets. A bitmap that is well-formed and has the bits of the members of a
finite set cannot be told from that set by any program, and every bitmap that a program makes is
such a bitmap. Equality of bitmaps is then equality of the sets.
-/

namespace MaximalCliques

/-- What the operations on vertex sets are to mean. -/
instance : VertexSet (Finset ℕ) where
  empty := ∅
  toList A := A.sort (· ≤ ·)
  size := Finset.card
  contains A v := v ∈ A
  insert A v := ⟨insert v A, v ∉ A⟩
  remove A v := ⟨A.erase v, v ∈ A⟩
  pop A := if h : A.Nonempty then .ok (A.max' h, A.erase (A.max' h)) else .error .emptySet
  intersection A B := A ∩ B
  difference A B := A \ B
  intersectionSize A B := (A ∩ B).card
  isDisjoint A B := Disjoint A B
  equal A B := A = B

namespace Bitmap

/-- The operations of bitmaps, without a promise that they are well-formed. -/
instance : VertexSet Bitmap where
  empty := empty
  toList := toList
  size := size
  contains := contains
  insert := insert
  remove := remove
  pop := pop
  intersection := intersection
  difference := difference
  intersectionSize := intersectionSize
  isDisjoint := isDisjoint
  equal a b := a == b

/-- A well-formed bitmap with the bits of the members of a set. -/
structure Represents (b : Bitmap) (A : Finset ℕ) : Prop where
  wellFormed : b.WellFormed
  mem_iff : ∀ v, v ∈ A ↔ b.contains v = true

variable {a b : Bitmap} {A B : Finset ℕ}

namespace Represents

theorem mem_toList_iff (h : b.Represents A) (v : ℕ) : v ∈ b.toList ↔ v ∈ A := by
  rw [b.mem_toList, h.mem_iff]

theorem decide_mem (h : b.Represents A) (v : ℕ) : decide (v ∈ A) = b.contains v := by
  simp [h.mem_iff]

theorem toFinset_toList (h : b.Represents A) : b.toList.toFinset = A := by
  ext v
  rw [List.mem_toFinset, h.mem_toList_iff]

theorem toList_eq_sort (h : b.Represents A) : b.toList = A.sort (· ≤ ·) := by
  rw [← h.toFinset_toList, (List.toFinset_sort (· ≤ ·) b.nodup_toList).mpr]
  exact b.pairwise_toList.imp fun hlt => hlt.le

theorem size_eq_card (h : b.Represents A) : b.size = A.card := by
  rw [h.wellFormed.size_eq_length, ← h.toFinset_toList, List.toFinset_card_of_nodup b.nodup_toList]

theorem insert (h : b.Represents A) (v : ℕ) : (b.insert v).set.Represents (Insert.insert v A) := by
  refine ⟨h.wellFormed.insert v, fun w => ?_⟩
  simp [contains_insert, h.mem_iff]

theorem remove (h : b.Represents A) (v : ℕ) : (b.remove v).set.Represents (A.erase v) := by
  refine ⟨h.wellFormed.remove v, fun w => ?_⟩
  simp [contains_remove, h.mem_iff]

theorem intersection (ha : a.Represents A) (hb : b.Represents B) :
    (a.intersection b).Represents (A ∩ B) := by
  refine ⟨wellFormed_intersection a b, fun v => ?_⟩
  simp [contains_intersection, ha.mem_iff, hb.mem_iff]

theorem difference (ha : a.Represents A) (hb : b.Represents B) :
    (a.difference b).Represents (A \ B) := by
  refine ⟨wellFormed_difference a b, fun v => ?_⟩
  simp [contains_difference, ha.mem_iff, hb.mem_iff]

theorem isDisjoint_iff (ha : a.Represents A) (hb : b.Represents B) :
    a.isDisjoint b = true ↔ Disjoint A B := by
  rw [Bitmap.isDisjoint_iff, Finset.disjoint_left]
  simp only [ha.mem_toList_iff, hb.mem_toList_iff]

theorem eq_iff (ha : a.Represents A) (hb : b.Represents B) : a = b ↔ A = B := by
  rw [ha.wellFormed.eq_iff hb.wellFormed, Finset.ext_iff]
  simp only [ha.mem_toList_iff, hb.mem_toList_iff]

theorem pop_of_empty (h : b.Represents ∅) : b.pop = .error .emptySet := by
  apply pop_nil
  rw [h.wellFormed.chunks_eq_nil_iff, h.toList_eq_sort, Finset.sort_empty]

theorem exists_pop (h : b.Represents A) (hA : A.Nonempty) :
    ∃ c, b.pop = .ok (A.max' hA, c) ∧ c.Represents (A.erase (A.max' hA)) := by
  have hne : b.toList ≠ [] := by
    obtain ⟨v, hv⟩ := hA
    exact List.ne_nil_of_mem ((h.mem_toList_iff v).mpr hv)
  obtain ⟨v, c, hpop, hc, hv, hmax, hmem⟩ := h.wellFormed.pop_of_nonempty hne
  have hgreatest : A.max' hA = v := by
    rw [Finset.max'_eq_iff]
    exact ⟨(h.mem_toList_iff v).mp hv, fun w hw => hmax w ((h.mem_toList_iff w).mpr hw)⟩
  rw [hgreatest]
  refine ⟨c, hpop, hc, fun w => ?_⟩
  rw [← c.mem_toList, hmem, h.mem_toList_iff, Finset.mem_erase, and_comm]

end Represents

theorem represents_empty : empty.Represents ∅ :=
  ⟨wellFormed_empty, by simp [contains, empty]⟩

open SetProgram

/-- No operation tells a bitmap from the set that it stands for. -/
theorem orderedSimulation_represents : OrderedSimulation Represents where
  empty := represents_empty
  insert h v := ⟨h.insert v, (insert_changed _ v).trans (by simp [VertexSet.insert, h.mem_iff])⟩
  remove h v := ⟨h.remove v, (remove_changed _ v).trans (h.decide_mem v).symm⟩
  intersection := Represents.intersection
  difference := Represents.difference
  size := Represents.size_eq_card
  contains h v := (h.decide_mem v).symm
  intersectionSize ha hb := (ha.intersection hb).size_eq_card
  isDisjoint ha hb := (Bool.eq_iff_iff.mpr ((ha.isDisjoint_iff hb).trans decide_eq_true_iff.symm))
  equal ha hb := Bool.eq_iff_iff.mpr (beq_iff_eq.trans ((ha.eq_iff hb).trans decide_eq_true_iff.symm))
  toList := Represents.toList_eq_sort
  pop {b A} h := by
    rcases A.eq_empty_or_nonempty with rfl | hA
    · exact Or.inl ⟨.emptySet, h.pop_of_empty, rfl⟩
    · obtain ⟨c, hpop, hc⟩ := h.exists_pop hA
      exact Or.inr ⟨_, c, _, hpop, dif_pos hA, hc⟩

theorem orderedSimulation_bitmap :
    OrderedSimulation fun (s : DenseSet) (b : Bitmap) => s.bitmap = b where
  empty := rfl
  insert h v := by subst h; exact ⟨rfl, rfl⟩
  remove h v := by subst h; exact ⟨rfl, rfl⟩
  intersection hs ht := by subst hs ht; rfl
  difference hs ht := by subst hs ht; rfl
  size h := by subst h; rfl
  contains h v := by subst h; rfl
  intersectionSize hs ht := by subst hs ht; rfl
  isDisjoint hs ht := by subst hs ht; rfl
  equal hs ht := by
    subst hs ht
    exact Bool.eq_iff_iff.mpr (by simp [VertexSet.equal, DenseSet.ext_iff_bitmap])
  toList h := by subst h; rfl
  pop {s b} h := by
    subst h
    cases hpop : s.bitmap.pop with
    | error e => exact Or.inl ⟨e, DenseSet.pop_eq_of_error hpop, hpop⟩
    | ok x => exact Or.inr ⟨x.1, _, x.2, DenseSet.pop_eq_of_ok hpop, hpop, rfl⟩

theorem represents_ofList (vs : List ℕ) :
    (VertexSet.ofList vs : Bitmap).Represents (VertexSet.ofList vs : Finset ℕ) :=
  orderedSimulation_represents.foldl_insert vs represents_empty

theorem ofList_eq_toFinset (vs : List ℕ) : (VertexSet.ofList vs : Finset ℕ) = vs.toFinset := by
  have hfold : ∀ (vs : List ℕ) (A : Finset ℕ),
      vs.foldl (fun A v => (VertexSet.insert A v).set) A = vs.toFinset ∪ A := by
    intro vs
    induction vs with
    | nil => exact fun A => (Finset.empty_union A).symm
    | cons v vs ih =>
      intro A
      rw [List.foldl_cons, ih, List.toFinset_cons, Finset.insert_union]
      exact Finset.union_insert v _ A
  exact (hfold vs ∅).trans (Finset.union_empty _)

/-- A program gets the same answers from bitmaps as from finite sets. Every bitmap that it makes ends
in a chunk that is not zero, stores the number of its bits and lists the members of its set in
ascending order; it refuses to pop exactly if it has none and otherwise pops the greatest one. Two
bitmaps that any programs make are equal exactly when their sets are. Dense sets are these bitmaps.
What is collected from a list are its members, and a set made for a capacity is empty. -/
theorem runFresh_represents (program : List Instruction) :
    let bitmaps := runFresh Bitmap program
    let sets := runFresh (Finset ℕ) program
    bitmaps.2 = sets.2 ∧
    (∀ name,
      (bitmaps.1 name).chunks.getLast? ≠ some 0 ∧
      (bitmaps.1 name).size = total ((bitmaps.1 name).chunks.map Chunk.count) ∧
      (bitmaps.1 name).toList = (sets.1 name).sort (· ≤ ·) ∧
      ((bitmaps.1 name).pop = .error .emptySet ↔ sets.1 name = ∅) ∧
      ∀ hne : (sets.1 name).Nonempty, ∃ b,
        (bitmaps.1 name).pop = .ok ((sets.1 name).max' hne, b) ∧
        b.toList = ((sets.1 name).erase ((sets.1 name).max' hne)).sort (· ≤ ·)) ∧
    (∀ program' name name',
      bitmaps.1 name = (runFresh Bitmap program').1 name' ↔
        sets.1 name = (runFresh (Finset ℕ) program').1 name') ∧
    (runFresh DenseSet program).2 = bitmaps.2 ∧
    (∀ name, ((runFresh DenseSet program).1 name).bitmap = bitmaps.1 name) ∧
    (∀ vs : List ℕ, (VertexSet.ofList vs : Finset ℕ) = vs.toFinset ∧
      (VertexSet.ofList vs : Bitmap).toList = vs.toFinset.sort (· ≤ ·)) ∧
    ∀ capacity, (VertexSet.withCapacity capacity : Finset ℕ) = ∅ ∧
      (VertexSet.withCapacity capacity : Bitmap) = Bitmap.empty := by
  intro bitmaps sets
  obtain ⟨hmade, hanswers⟩ := orderedSimulation_represents.runFresh program
  obtain ⟨hdense, hdenseAnswers⟩ := orderedSimulation_bitmap.runFresh program
  refine ⟨hanswers, fun name => ?_, fun program' name name' => ?_, hdenseAnswers, hdense,
    fun vs => ⟨ofList_eq_toFinset vs, ?_⟩, fun capacity => ⟨rfl, rfl⟩⟩
  · have h : (bitmaps.1 name).Represents (sets.1 name) := hmade name
    refine ⟨h.wellFormed.last_ne_zero, h.wellFormed.size_eq, h.toList_eq_sort, ?_, fun hne => ?_⟩
    · constructor
      · intro hpop
        by_contra hne
        obtain ⟨b, hb, -⟩ := h.exists_pop (Finset.nonempty_iff_ne_empty.mpr hne)
        rw [hpop] at hb
        cases hb
      · intro hempty
        rw [hempty] at h
        exact h.pop_of_empty
    · obtain ⟨b, hb, hrest⟩ := h.exists_pop hne
      exact ⟨b, hb, hrest.toList_eq_sort⟩
  · exact (hmade name).eq_iff ((orderedSimulation_represents.runFresh program').1 name')
  · rw [(represents_ofList vs).toList_eq_sort, ofList_eq_toFinset]

/-- A vertex that comes and goes leaves no trace, even if it needed chunks of its own. -/
example :
    (runFresh Bitmap [.ofList 0 [500, 1], .remove 0 500, .ofList 1 [1], .equal 0 1, .pop 1]).2 =
      [.done, .flag true, .done, .flag true, .popped (.ok 1)] := by rfl

end Bitmap
end MaximalCliques

import Mathlib.Data.List.Nodup
import MaximalCliques.Proofs.VertexSet.Program
import MaximalCliques.VertexSet.Dense
import MaximalCliques.VertexSet.Indexed

/-!
# Representations of vertex sets cannot be told apart

Over any two lawful representations, sets with the same members stay so under the same changes and
answer alike wherever the order of the members plays no part. In which order a set is popped is up to
its representation, but it gives every member once before it is empty, and from then on it fails.
-/

namespace MaximalCliques

open VertexSet LawfulVertexSet

variable {S T : Type} [VertexSet S] [VertexSet T]

namespace VertexSet

def SameMembers (s : S) (t : T) : Prop := ∀ v, v ∈ toList s ↔ v ∈ toList t

variable [LawfulVertexSet S] [LawfulVertexSet T] {s s' : S} {t t' : T}

namespace SameMembers

theorem contains_eq (h : SameMembers s t) (v : ℕ) : contains s v = contains t v := by
  rw [Bool.eq_iff_iff, contains_iff, contains_iff]
  exact h v

theorem size_eq (h : SameMembers s t) : size s = size t := by
  rw [size_eq_length, size_eq_length]
  exact ((List.perm_ext_iff_of_nodup (nodup_toList s) (nodup_toList t)).mpr h).length_eq

theorem insert (h : SameMembers s t) (v : ℕ) :
    SameMembers (VertexSet.insert s v).set (VertexSet.insert t v).set := by
  intro w
  rw [mem_insert, mem_insert, h w]

theorem remove (h : SameMembers s t) (v : ℕ) :
    SameMembers (VertexSet.remove s v).set (VertexSet.remove t v).set := by
  intro w
  rw [mem_remove, mem_remove, h w]

theorem intersection (h : SameMembers s t) (h' : SameMembers s' t') :
    SameMembers (VertexSet.intersection s s') (VertexSet.intersection t t') := by
  intro v
  rw [mem_intersection, mem_intersection, h v, h' v]

theorem difference (h : SameMembers s t) (h' : SameMembers s' t') :
    SameMembers (VertexSet.difference s s') (VertexSet.difference t t') := by
  intro v
  rw [mem_difference, mem_difference, h v, h' v]

theorem isDisjoint_eq (h : SameMembers s t) (h' : SameMembers s' t') :
    isDisjoint s s' = isDisjoint t t' := by
  rw [Bool.eq_iff_iff, isDisjoint_iff, isDisjoint_iff]
  simp only [h _, h' _]

theorem equal_eq (h : SameMembers s t) (h' : SameMembers s' t') : equal s s' = equal t t' := by
  rw [Bool.eq_iff_iff, equal_iff, equal_iff]
  simp only [h _, h' _]

end SameMembers

theorem exists_pop_perm (s : S) (h : toList s ≠ []) :
    ∃ v t, pop s = .ok (v, t) ∧ (toList s).Perm (v :: toList t) := by
  obtain ⟨v, t, hpop, hv, hmem⟩ := pop_of_nonempty s h
  have hfresh : v ∉ toList t := fun hvt => ((hmem v).mp hvt).2 rfl
  refine ⟨v, t, hpop, ?_⟩
  rw [List.perm_ext_iff_of_nodup (nodup_toList s) (List.nodup_cons.mpr ⟨hfresh, nodup_toList t⟩)]
  intro w
  rw [List.mem_cons, hmem]
  by_cases hw : w = v <;> simp [hw, hv]

end VertexSet

namespace SetProgram

section Agreement

variable (S T) [LawfulVertexSet S] [LawfulVertexSet T]

/-- Having the same members is all that questions without order can see. -/
theorem simulation_sameMembers : Simulation (SameMembers : S → T → Prop) where
  empty := by simp [SameMembers, toList_empty]
  insert h v := ⟨h.insert v, by rw [insert_changed, insert_changed, h.contains_eq]⟩
  remove h v := ⟨h.remove v, by rw [remove_changed, remove_changed, h.contains_eq]⟩
  intersection := SameMembers.intersection
  difference := SameMembers.difference
  size := SameMembers.size_eq
  contains := SameMembers.contains_eq
  intersectionSize h h' := by
    rw [intersectionSize_eq, intersectionSize_eq, (h.intersection h').size_eq]
  isDisjoint := SameMembers.isDisjoint_eq
  equal := SameMembers.equal_eq

end Agreement

section Draining

/-- Popping a set again and again gives each of its members once, then nothing but failures; it
leaves an empty set and the other sets as they were. -/
def Drains (sets : ℕ → S) (name : ℕ) : Prop :=
  ∃ vs : List ℕ, vs.Nodup ∧ (∀ v, v ∈ vs ↔ contains (sets name) v = true) ∧
    ∀ k, ∃ s : S, equal s empty = true ∧
      run sets (List.replicate (vs.length + k) (.pop name)) =
        (Function.update sets name s,
          vs.map (fun v => .popped (.ok v)) ++ List.replicate k (.popped (.error .emptySet)))

theorem run_pop_of_ok {sets : ℕ → S} {name v : ℕ} {s : S} (h : pop (sets name) = .ok (v, s))
    (program : List Instruction) :
    run sets (.pop name :: program) =
      ((run (Function.update sets name s) program).1,
        .popped (.ok v) :: (run (Function.update sets name s) program).2) := by
  simp only [run, step, h]

theorem run_pops_of_error {sets : ℕ → S} {name : ℕ} {e : Error} (h : pop (sets name) = .error e)
    (k : ℕ) :
    run sets (List.replicate k (.pop name)) = (sets, List.replicate k (.popped (.error e))) := by
  induction k with
  | zero => rfl
  | succ k ih => simp only [List.replicate_succ, run, step, h, ih]

variable [LawfulVertexSet S]

theorem exists_drained (sets : ℕ → S) (name : ℕ) :
    ∃ vs : List ℕ, vs.Perm (toList (sets name)) ∧ ∃ s : S, toList s = [] ∧ ∀ k,
      run sets (List.replicate (vs.length + k) (.pop name)) =
        (Function.update sets name s,
          vs.map (fun v => .popped (.ok v)) ++ List.replicate k (.popped (.error .emptySet))) := by
  induction hn : (toList (sets name)).length generalizing sets with
  | zero =>
    have hnil := List.length_eq_zero_iff.mp hn
    refine ⟨[], by rw [hnil], sets name, hnil, fun k => ?_⟩
    simp [run_pops_of_error (pop_of_empty _ hnil)]
  | succ n ih =>
    have hne : toList (sets name) ≠ [] := by
      intro hnil
      simp [hnil] at hn
    obtain ⟨v, t, hpop, hperm⟩ := exists_pop_perm _ hne
    obtain ⟨vs, hvs, s, hs, hrun⟩ := ih (Function.update sets name t) (by
      have := hperm.length_eq
      simp only [Function.update_self, List.length_cons] at this ⊢
      omega)
    rw [Function.update_self] at hvs
    refine ⟨v :: vs, (hvs.cons v).trans hperm.symm, s, hs, fun k => ?_⟩
    rw [List.length_cons, Nat.succ_add, List.replicate_succ, run_pop_of_ok hpop, hrun k,
      Function.update_idem]
    rfl

theorem drains (sets : ℕ → S) (name : ℕ) : Drains sets name := by
  obtain ⟨vs, hperm, s, hs, hrun⟩ := exists_drained sets name
  refine ⟨vs, hperm.nodup_iff.mpr (nodup_toList _), fun v => ?_, fun k => ⟨s, ?_, hrun k⟩⟩
  · rw [hperm.mem_iff, contains_iff]
  · rw [equal_iff, hs, toList_empty]
    simp

end Draining

/-- A program without pops and listings gets the same answers from dense sets and from indexed sets.
Whatever the sets of either representation, popping one of them gives each member once and then
fails, and leaves an empty set. -/
theorem dense_indexed_alike (program : List Instruction)
    (hprogram : ∀ i ∈ program, i.IsOrderFree) :
    (runFresh DenseSet program).2 = (runFresh IndexedSet program).2 ∧
      (∀ (sets : ℕ → DenseSet) name, Drains sets name) ∧
      ∀ (sets : ℕ → IndexedSet) name, Drains sets name :=
  ⟨((simulation_sameMembers DenseSet IndexedSet).runFresh hprogram).2, drains, drains⟩

/-- Sets across chunks, one of them changed while its copy stays, and an operand of itself. -/
def mixedProgram : List Instruction :=
  [.ofList 0 [200, 3, 64, 3], .clone 1 0, .remove 0 3, .remove 0 3, .insert 0 7, .equal 0 1,
    .intersection 2 0 1, .intersectionSize 0 1, .difference 2 2 2, .isEmpty 2, .isDisjoint 1 2]

theorem dense_indexed_alike_mixedProgram :
    (∀ i ∈ mixedProgram, i.IsOrderFree) ∧
      (runFresh IndexedSet mixedProgram).2 =
        [.done, .done, .flag true, .flag false, .flag true, .flag false, .done, .number 2, .done,
          .flag true, .flag true] ∧
      (runFresh DenseSet mixedProgram).2 = (runFresh IndexedSet mixedProgram).2 ∧
      Drains (runFresh DenseSet mixedProgram).1 0 := by
  have hprogram : ∀ i ∈ mixedProgram, i.IsOrderFree := by
    simp [mixedProgram, Instruction.IsOrderFree]
  obtain ⟨hanswers, hdrains, -⟩ := dense_indexed_alike mixedProgram hprogram
  exact ⟨hprogram, by rfl, hanswers, hdrains _ 0⟩

end SetProgram
end MaximalCliques

import Mathlib.Data.Multiset.Bind

/-!
# Interleavings of lists

A list interleaves a number of lists if it has their entries and no others, those of each list in
their order. Which list comes first does not matter, so the lists form a multiset.
-/

namespace MaximalCliques

variable {α : Type*}

/-- `Interleaving lists ys`: taking an entry from the front of some list, again and again until all
are empty, gives `ys`. -/
inductive Interleaving : Multiset (List α) → List α → Prop
  | nil : Interleaving 0 []
  | skip {lists ys} (h : Interleaving lists ys) : Interleaving ([] ::ₘ lists) ys
  | cons {lists x xs ys} (h : Interleaving (xs ::ₘ lists) ys) :
      Interleaving ((x :: xs) ::ₘ lists) (x :: ys)

namespace Interleaving

variable {lists : Multiset (List α)} {xs ys : List α}

theorem of_forall_eq_nil (h : ∀ xs ∈ lists, xs = []) : Interleaving lists [] := by
  induction lists using Multiset.induction with
  | empty => exact nil
  | cons xs lists ih =>
    rw [h xs (Multiset.mem_cons_self _ _)]
    exact (ih fun ys hys => h ys (Multiset.mem_cons_of_mem hys)).skip

theorem sublist (h : Interleaving lists ys) (hxs : xs ∈ lists) : xs.Sublist ys := by
  induction h generalizing xs with
  | nil => simp at hxs
  | skip h ih =>
    rcases Multiset.mem_cons.mp hxs with rfl | hxs
    · exact List.nil_sublist _
    · exact ih hxs
  | cons h ih =>
    rcases Multiset.mem_cons.mp hxs with rfl | hxs
    · exact (ih (Multiset.mem_cons_self _ _)).cons_cons _
    · exact (ih (Multiset.mem_cons_of_mem hxs)).cons _

theorem coe_eq_join (h : Interleaving lists ys) : (ys : Multiset α) = (lists.map (↑)).join := by
  induction h with
  | nil => rfl
  | skip h ih => simpa using ih
  | cons h ih =>
    rw [Multiset.map_cons, Multiset.join_cons] at ih ⊢
    rw [← Multiset.cons_coe, ← Multiset.cons_coe, ih, Multiset.cons_add]

theorem perm_flatten {ls : List (List α)} (h : Interleaving (ls : Multiset (List α)) ys) :
    ys.Perm ls.flatten := by
  rw [← Multiset.coe_eq_coe, h.coe_eq_join, Multiset.map_coe, Multiset.coe_join]

end Interleaving

theorem filter_mem_of_sublist [BEq α] [LawfulBEq α] {xs ys : List α} (h : xs.Sublist ys)
    (hys : ys.Nodup) :
    ys.filter (fun y => decide (y ∈ xs)) = xs := by
  have hsub : xs.Sublist (ys.filter fun y => decide (y ∈ xs)) := by
    have := h.filter fun y => decide (y ∈ xs)
    rwa [List.filter_eq_self.mpr (by simp)] at this
  have hlength : (ys.filter fun y => decide (y ∈ xs)).length ≤ xs.length := by
    apply (hys.filter _).length_le_of_subset
    intro y hy
    simpa using (List.mem_filter.mp hy).2
  exact (hsub.eq_of_length_le hlength).symm

end MaximalCliques

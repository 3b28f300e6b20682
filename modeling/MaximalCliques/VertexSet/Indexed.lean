import MaximalCliques.VertexSet

/-!
# Indexed vertex sets

An indexed set keeps its members in the order in which they came, each once. Removing a member moves
the last one into its place, and popping takes the last one. It suits graphs whose vertex ids are
large compared to their number.
-/

namespace MaximalCliques

structure IndexedSet where
  vertices : List Nat
  nodup : vertices.Nodup

namespace IndexedSet

def push (vs : List Nat) (v : Nat) : List Nat := if v ∈ vs then vs else vs ++ [v]

/-- Take out `v` and let the last vertex fill its place. -/
def swapErase (vs : List Nat) (v : Nat) : List Nat :=
  match vs.getLast? with
  | none => []
  | some w => if v ∈ vs then vs.dropLast.map fun u => if u = v then w else u else vs

/-- The vertices in both lists, in the order of the shorter list, or of the first of two equally
long ones. -/
def common (vs ws : List Nat) : List Nat :=
  if vs.length ≤ ws.length then vs.filter (· ∈ ws) else ws.filter (· ∈ vs)

theorem mem_push (vs : List Nat) (v w : Nat) : w ∈ push vs v ↔ w = v ∨ w ∈ vs := by
  rw [push]
  split
  · exact ⟨.inr, fun h => h.elim (fun h => by rwa [h]) id⟩
  · simp [or_comm]

theorem nodup_push {vs : List Nat} (h : vs.Nodup) (v : Nat) : (push vs v).Nodup := by
  rw [push]
  split
  · exact h
  · rename_i hv
    refine List.nodup_append.2 ⟨h, by simp, ?_⟩
    rintro w hw u hu rfl
    rw [List.mem_singleton] at hu
    exact hv (hu ▸ hw)

theorem swapErase_of_mem {vs : List Nat} {v w : Nat} (h : v ∈ vs ++ [w]) :
    swapErase (vs ++ [w]) v = vs.map fun u => if u = v then w else u := by
  simp only [swapErase, List.getLast?_append, List.getLast?_singleton, Option.some_or, if_pos h,
    List.dropLast_concat]

theorem swapErase_of_not_mem {vs : List Nat} {v : Nat} (h : v ∉ vs) : swapErase vs v = vs := by
  rw [swapErase]
  split
  · rename_i hn
    rw [List.getLast?_eq_none_iff] at hn
    exact hn.symm
  · rw [if_neg h]

theorem mem_swapErase {vs : List Nat} (h : vs.Nodup) (v u : Nat) :
    u ∈ swapErase vs v ↔ u ∈ vs ∧ u ≠ v := by
  by_cases hv : v ∈ vs
  · rcases List.eq_nil_or_concat vs with rfl | ⟨ws, w, rfl⟩
    · cases hv
    · rw [List.concat_eq_append] at h hv ⊢
      have hw : w ∉ ws := fun hw => (List.nodup_append.1 h).2.2 w hw w (by simp) rfl
      rw [swapErase_of_mem hv, List.mem_map]
      constructor
      · rintro ⟨a, ha, rfl⟩
        split
        · rename_i hav
          exact ⟨by simp, fun hwv => hw (by rw [hwv, ← hav]; exact ha)⟩
        · exact ⟨List.mem_append_left _ ha, ‹_›⟩
      · rintro ⟨hu, hne⟩
        rcases List.mem_append.1 hu with hu | hu
        · exact ⟨u, hu, if_neg hne⟩
        · rw [List.mem_singleton] at hu
          subst hu
          rcases List.mem_append.1 hv with hv | hv
          · exact ⟨v, hv, if_pos rfl⟩
          · exact absurd (List.mem_singleton.1 hv).symm hne
  · rw [swapErase_of_not_mem hv]
    exact ⟨fun hu => ⟨hu, fun h => hv (h ▸ hu)⟩, And.left⟩

theorem nodup_swapErase {vs : List Nat} (h : vs.Nodup) (v : Nat) : (swapErase vs v).Nodup := by
  by_cases hv : v ∈ vs
  · rcases List.eq_nil_or_concat vs with rfl | ⟨ws, w, rfl⟩
    · cases hv
    · rw [List.concat_eq_append] at h hv ⊢
      obtain ⟨hws, -, hd⟩ := List.nodup_append.1 h
      rw [swapErase_of_mem hv]
      refine List.pairwise_map.2 (hws.imp_of_mem fun {a b} ha hb hne => ?_)
      have ha' := hd a ha w (by simp)
      have hb' := hd b hb w (by simp)
      split <;> split <;> grind
  · rwa [swapErase_of_not_mem hv]

theorem mem_common (vs ws : List Nat) (v : Nat) : v ∈ common vs ws ↔ v ∈ vs ∧ v ∈ ws := by
  rw [common]; split <;> simp [and_comm]

theorem nodup_common {vs ws : List Nat} (hv : vs.Nodup) (hw : ws.Nodup) : (common vs ws).Nodup := by
  rw [common]; split
  · exact hv.sublist List.filter_sublist
  · exact hw.sublist List.filter_sublist

def empty : IndexedSet := ⟨[], List.nodup_nil⟩

def insert (s : IndexedSet) (v : Nat) : Change IndexedSet :=
  ⟨⟨push s.vertices v, nodup_push s.nodup v⟩, v ∉ s.vertices⟩

def remove (s : IndexedSet) (v : Nat) : Change IndexedSet :=
  ⟨⟨swapErase s.vertices v, nodup_swapErase s.nodup v⟩, v ∈ s.vertices⟩

def pop (s : IndexedSet) : Except Error (Nat × IndexedSet) :=
  match s.vertices.getLast? with
  | none => .error .emptySet
  | some v => .ok (v, ⟨s.vertices.dropLast, s.nodup.sublist (List.dropLast_sublist _)⟩)

def intersection (s t : IndexedSet) : IndexedSet :=
  ⟨common s.vertices t.vertices, nodup_common s.nodup t.nodup⟩

def difference (s t : IndexedSet) : IndexedSet :=
  ⟨s.vertices.filter (· ∉ t.vertices), s.nodup.sublist List.filter_sublist⟩

def equal (s t : IndexedSet) : Bool :=
  s.vertices.length == t.vertices.length && s.vertices.all (· ∈ t.vertices)

instance : VertexSet IndexedSet where
  empty := empty
  toList := vertices
  size s := s.vertices.length
  contains s v := v ∈ s.vertices
  insert := insert
  remove := remove
  pop := pop
  intersection := intersection
  difference := difference
  intersectionSize s t :=
    if s.vertices.length ≤ t.vertices.length then s.vertices.countP (· ∈ t.vertices)
    else t.vertices.countP (· ∈ s.vertices)
  isDisjoint s t :=
    if s.vertices.length ≤ t.vertices.length then s.vertices.all (· ∉ t.vertices)
    else t.vertices.all (· ∉ s.vertices)
  equal := equal
  bytes := 56

theorem equal_iff (s t : IndexedSet) : equal s t = true ↔ ∀ v, v ∈ s.vertices ↔ v ∈ t.vertices := by
  simp only [equal, Bool.and_eq_true, beq_iff_eq, List.all_eq_true, decide_eq_true_eq]
  constructor
  · rintro ⟨hl, hs⟩ v
    refine ⟨hs v, fun ht => Decidable.byContradiction fun hv => ?_⟩
    have hsub : s.vertices ⊆ t.vertices.erase v := fun w hw =>
      (t.nodup.mem_erase_iff).2 ⟨fun h => hv (h ▸ hw), hs w hw⟩
    have := s.nodup.length_le_of_subset hsub
    have := List.length_pos_of_mem ht
    rw [List.length_erase_of_mem ‹v ∈ t.vertices›] at *
    omega
  · intro h
    exact ⟨((List.perm_ext_iff_of_nodup s.nodup t.nodup).2 h).length_eq, fun v => (h v).1⟩

instance : LawfulVertexSet IndexedSet where
  nodup_toList s := s.nodup
  toList_empty := rfl
  size_eq_length _ := rfl
  contains_iff s v := by simp [VertexSet.contains, VertexSet.toList]
  mem_insert s v w := mem_push s.vertices v w
  insert_changed s v := by simp [VertexSet.insert, VertexSet.contains, insert]
  mem_remove s v w := mem_swapErase s.nodup v w
  remove_changed _ _ := rfl
  pop_of_empty s h := by
    rw [show VertexSet.toList s = s.vertices from rfl] at h
    simp [VertexSet.pop, pop, h]
  pop_of_nonempty s h := by
    rw [show VertexSet.toList s = s.vertices from rfl] at h
    rcases List.eq_nil_or_concat s.vertices with hn | ⟨ws, w, hw⟩
    · exact absurd hn h
    · rw [List.concat_eq_append] at hw
      have hd : w ∉ ws := by
        have := s.nodup
        rw [hw] at this
        exact fun hm => (List.nodup_append.1 this).2.2 w hm w (by simp) rfl
      refine ⟨w, ⟨s.vertices.dropLast, s.nodup.sublist (List.dropLast_sublist _)⟩, ?_, ?_, ?_⟩
      · rw [show VertexSet.pop s = pop s from rfl, pop]
        simp [hw]
      · simp [VertexSet.toList, hw]
      · intro u
        simp only [VertexSet.toList, hw, List.dropLast_concat, List.mem_append, List.mem_singleton]
        grind
  mem_intersection s t v := mem_common s.vertices t.vertices v
  mem_difference s t v := by simp [VertexSet.toList, VertexSet.difference, difference]
  intersectionSize_eq s t := by
    simp only [VertexSet.intersectionSize, VertexSet.size, VertexSet.intersection, intersection,
      common]
    split <;> simp [List.countP_eq_length_filter]
  isDisjoint_iff s t := by
    simp only [VertexSet.isDisjoint, VertexSet.toList]
    split
    · simp
    · simp only [List.all_eq_true, decide_eq_true_eq]
      exact ⟨fun h v hs ht => h v ht hs, fun h v ht hs => h v hs ht⟩
  equal_iff s t := equal_iff s t

end IndexedSet
end MaximalCliques

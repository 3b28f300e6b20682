import MaximalCliques.VertexSet.Bitmap

/-!
# Dense vertex sets

A dense set is a well-formed bitmap. It iterates in ascending order and pops its greatest member,
which suits graphs whose vertex ids are small.
-/

namespace MaximalCliques

structure DenseSet where
  bitmap : Bitmap
  wellFormed : bitmap.WellFormed
  deriving DecidableEq

namespace DenseSet

def empty : DenseSet := ⟨.empty, Bitmap.wellFormed_empty⟩

def insert (s : DenseSet) (v : Nat) : Change DenseSet :=
  let change := s.bitmap.insert v
  ⟨⟨change.set, s.wellFormed.insert v⟩, change.changed⟩

def remove (s : DenseSet) (v : Nat) : Change DenseSet :=
  let change := s.bitmap.remove v
  ⟨⟨change.set, s.wellFormed.remove v⟩, change.changed⟩

def pop (s : DenseSet) : Except Error (Nat × DenseSet) :=
  match h : s.bitmap.pop with
  | .error e => .error e
  | .ok (v, b) => .ok (v, ⟨b, s.wellFormed.pop h⟩)

instance : VertexSet DenseSet where
  empty := empty
  toList s := s.bitmap.toList
  size s := s.bitmap.size
  contains s v := s.bitmap.contains v
  insert := insert
  remove := remove
  pop := pop
  intersection s t := ⟨s.bitmap.intersection t.bitmap, Bitmap.wellFormed_intersection _ _⟩
  difference s t := ⟨s.bitmap.difference t.bitmap, Bitmap.wellFormed_difference _ _⟩
  intersectionSize s t := s.bitmap.intersectionSize t.bitmap
  isDisjoint s t := s.bitmap.isDisjoint t.bitmap
  equal s t := s == t

theorem pop_eq_of_ok {s : DenseSet} {v : Nat} {b : Bitmap} (h : s.bitmap.pop = .ok (v, b)) :
    s.pop = .ok (v, ⟨b, s.wellFormed.pop h⟩) := by
  rw [pop]
  split
  · rename_i h'; rw [h] at h'; cases h'
  · rename_i h'; rw [h] at h'; cases h'; rfl

theorem pop_eq_of_error {s : DenseSet} {e : Error} (h : s.bitmap.pop = .error e) :
    s.pop = .error e := by
  rw [pop]
  split
  · rename_i h'; rw [h] at h'; cases h'; rfl
  · rename_i h'; rw [h] at h'; cases h'

theorem ext_iff_bitmap {s t : DenseSet} : s = t ↔ s.bitmap = t.bitmap := by
  cases s; cases t; simp

instance : LawfulVertexSet DenseSet where
  nodup_toList s := s.bitmap.nodup_toList
  toList_empty := rfl
  size_eq_length s := s.wellFormed.size_eq_length
  contains_iff s v := (s.bitmap.mem_toList v).symm
  mem_insert s v w := by
    rw [show VertexSet.toList (VertexSet.insert s v).set = (s.bitmap.insert v).set.toList from rfl]
    simp [Bitmap.mem_toList, Bitmap.contains_insert, VertexSet.toList]
  insert_changed s v := s.bitmap.insert_changed v
  mem_remove s v w := by
    rw [show VertexSet.toList (VertexSet.remove s v).set = (s.bitmap.remove v).set.toList from rfl]
    simp [Bitmap.mem_toList, Bitmap.contains_remove, VertexSet.toList, and_comm]
  remove_changed s v := s.bitmap.remove_changed v
  pop_of_empty s h := pop_eq_of_error (Bitmap.pop_nil (s.wellFormed.chunks_eq_nil_iff.2 h))
  pop_of_nonempty s h := by
    obtain ⟨v, b, hp, hb, hv, -, hm⟩ := s.wellFormed.pop_of_nonempty h
    exact ⟨v, ⟨b, hb⟩, pop_eq_of_ok hp, hv, hm⟩
  mem_intersection s t v := by
    simp [VertexSet.toList, VertexSet.intersection, Bitmap.mem_toList, Bitmap.contains_intersection]
  mem_difference s t v := by
    simp [VertexSet.toList, VertexSet.difference, Bitmap.mem_toList, Bitmap.contains_difference]
  intersectionSize_eq s t := rfl
  isDisjoint_iff s t := s.bitmap.isDisjoint_iff t.bitmap
  equal_iff s t := by
    rw [show VertexSet.equal s t = (s == t) from rfl, beq_iff_eq, ext_iff_bitmap]
    exact s.wellFormed.eq_iff t.wellFormed

end DenseSet
end MaximalCliques

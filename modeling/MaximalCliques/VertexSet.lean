import MaximalCliques.Error

/-!
# Vertex sets

A search works on sets of vertices through the operations of `VertexSet`. The view of a set is
`toList`: its members, each once, in iteration order. `LawfulVertexSet` says what every operation
does to that view, so results about searches hold for every lawful representation. The order of the
view is left to the representation; it decides the order in which a search reports.
-/

namespace MaximalCliques

/-- A set after an operation on one vertex, and whether its members changed. -/
structure Change (S : Type) where
  set : S
  changed : Bool

class VertexSet (S : Type) where
  empty : S
  /-- The members in iteration order. -/
  toList : S → List Nat
  size : S → Nat
  contains : S → Nat → Bool
  insert : S → Nat → Change S
  remove : S → Nat → Change S
  /-- Take out the member that is cheapest to remove. -/
  pop : S → Except Error (Nat × S)
  intersection : S → S → S
  difference : S → S → S
  /-- The size of the intersection, without building it. -/
  intersectionSize : S → S → Nat
  isDisjoint : S → S → Bool
  /-- Do the two sets have the same members? -/
  equal : S → S → Bool
  /-- The bytes that a set takes in an array; its members are kept elsewhere. -/
  bytes : Nat := 32

namespace VertexSet

variable {S : Type} [VertexSet S]

/-- An empty set with room for vertices below `capacity`, which is a hint and changes nothing. -/
def withCapacity (_capacity : Nat) : S := empty

def isEmpty (s : S) : Bool := size s == 0

def choose (s : S) : Except Error Nat :=
  match toList s with
  | [] => .error .emptySet
  | v :: _ => .ok v

def ofList (vs : List Nat) : S := vs.foldl (fun s v => (insert s v).set) empty

end VertexSet

open VertexSet

/-- What the operations mean in terms of members. -/
class LawfulVertexSet (S : Type) [VertexSet S] : Prop where
  nodup_toList (s : S) : (toList s).Nodup
  toList_empty : toList (empty : S) = []
  size_eq_length (s : S) : size s = (toList s).length
  contains_iff (s : S) (v : Nat) : contains s v = true ↔ v ∈ toList s
  mem_insert (s : S) (v w : Nat) : w ∈ toList (insert s v).set ↔ w = v ∨ w ∈ toList s
  insert_changed (s : S) (v : Nat) : (insert s v).changed = !contains s v
  mem_remove (s : S) (v w : Nat) : w ∈ toList (remove s v).set ↔ w ∈ toList s ∧ w ≠ v
  remove_changed (s : S) (v : Nat) : (remove s v).changed = contains s v
  pop_of_empty (s : S) (h : toList s = []) : pop s = .error .emptySet
  pop_of_nonempty (s : S) (h : toList s ≠ []) :
    ∃ v t, pop s = .ok (v, t) ∧ v ∈ toList s ∧ ∀ w, w ∈ toList t ↔ w ∈ toList s ∧ w ≠ v
  mem_intersection (s t : S) (v : Nat) :
    v ∈ toList (intersection s t) ↔ v ∈ toList s ∧ v ∈ toList t
  mem_difference (s t : S) (v : Nat) :
    v ∈ toList (difference s t) ↔ v ∈ toList s ∧ v ∉ toList t
  intersectionSize_eq (s t : S) : intersectionSize s t = size (intersection s t)
  isDisjoint_iff (s t : S) : isDisjoint s t = true ↔ ∀ v ∈ toList s, v ∉ toList t
  equal_iff (s t : S) : equal s t = true ↔ ∀ v, v ∈ toList s ↔ v ∈ toList t

namespace VertexSet

variable {S : Type} [VertexSet S] [LawfulVertexSet S]

open LawfulVertexSet

theorem isEmpty_iff (s : S) : isEmpty s = true ↔ toList s = [] := by
  simp [isEmpty, size_eq_length]

theorem isEmpty_eq_false_iff (s : S) : isEmpty s = false ↔ toList s ≠ [] := by
  rw [← Bool.not_eq_true, isEmpty_iff]

theorem mem_toList_foldl_insert (vs : List Nat) (s : S) (w : Nat) :
    w ∈ toList (vs.foldl (fun s v => (insert s v).set) s) ↔ w ∈ vs ∨ w ∈ toList s := by
  induction vs generalizing s with
  | nil => simp
  | cons v vs ih =>
    rw [List.foldl_cons, ih, mem_insert, List.mem_cons]
    grind

theorem mem_ofList (vs : List Nat) (w : Nat) : w ∈ toList (ofList vs : S) ↔ w ∈ vs := by
  simp [ofList, mem_toList_foldl_insert, toList_empty]

end VertexSet
end MaximalCliques

import MaximalCliques.VertexSet

/-!
# Tables of neighbours

A table has one row per vertex, the set of its neighbours. It describes a simple undirected graph
when no vertex is its own neighbour, all neighbours are vertices of the table and adjacency goes
both ways. `fault?` walks the rows and finds the first entry that breaks one of these rules.
-/

namespace MaximalCliques

open VertexSet

structure Table (S : Type) where
  rows : Array S

namespace Table

variable {S : Type} [VertexSet S]

/-- Is there an array for that many rows? -/
def Fits (S : Type) [VertexSet S] (order : Nat) : Prop := order * VertexSet.bytes S < byteBound

instance (order : Nat) : Decidable (Fits S order) := inferInstanceAs (Decidable (_ < _))

/-- The table of `order` vertices without neighbours, for an order that fits. -/
def blank (order : Nat) : Table S := ⟨Array.replicate order empty⟩

def order (t : Table S) : Nat := t.rows.size

/-- The neighbours of `v`; a vertex outside the table has none. -/
def row (t : Table S) (v : Nat) : S := t.rows.getD v empty

/-- The rules of a simple undirected graph. -/
structure Valid (t : Table S) : Prop where
  loopless (v : Nat) : v ∉ toList (t.row v)
  inRange (v w : Nat) : w ∈ toList (t.row v) → w < t.order
  symmetric (v w : Nat) : w ∈ toList (t.row v) → v ∈ toList (t.row w)

/-- What is wrong with `w` as an entry of the row of `v`. -/
def entryFault? (t : Table S) (v w : Nat) : Option Error :=
  if w = v then some (.selfLoop v)
  else if t.order ≤ w then some (.outOfRange w t.order)
  else if contains (t.row w) v then none
  else some (.asymmetric v w)

def rowFault? (t : Table S) (v : Nat) : Option Error :=
  (toList (t.row v)).findSome? (t.entryFault? v)

def fault? (t : Table S) : Option Error := (List.range t.order).findSome? t.rowFault?

def degrees (t : Table S) : List Nat := t.rows.toList.map size

def degreeSum (t : Table S) : Nat := total t.degrees

def link (t : Table S) (v w : Nat) : Table S := ⟨t.rows.modify v fun s => (insert s w).set⟩

def addEdge (t : Table S) (e : Edge) : Except Error (Table S) :=
  if t.order ≤ e.1 then .error (.outOfRange e.1 t.order)
  else if t.order ≤ e.2 then .error (.outOfRange e.2 t.order)
  else if e.1 = e.2 then .error (.selfLoop e.1)
  else .ok ((t.link e.1 e.2).link e.2 e.1)

def ofEdges (order : Nat) (edges : List Edge) : Except Error (Table S) :=
  edges.foldlM addEdge (blank order)

variable [LawfulVertexSet S]

theorem toList_row_of_le {t : Table S} {v : Nat} (h : t.order ≤ v) : toList (t.row v) = [] := by
  rw [row, Array.getD_eq_getD_getElem?, Array.getElem?_eq_none h, Option.getD_none,
    LawfulVertexSet.toList_empty]

theorem entryFault?_eq_none_iff (t : Table S) (v w : Nat) :
    t.entryFault? v w = none ↔ w ≠ v ∧ w < t.order ∧ v ∈ toList (t.row w) := by
  simp only [entryFault?, ← LawfulVertexSet.contains_iff]
  split
  · simp_all
  · split
    · simp; omega
    · split <;> simp_all

theorem rowFault?_eq_none_iff (t : Table S) (v : Nat) :
    t.rowFault? v = none ↔
      ∀ w ∈ toList (t.row v), w ≠ v ∧ w < t.order ∧ v ∈ toList (t.row w) := by
  simp [rowFault?, List.findSome?_eq_none_iff, entryFault?_eq_none_iff]

theorem fault?_eq_none_iff (t : Table S) : t.fault? = none ↔ t.Valid := by
  simp only [fault?, List.findSome?_eq_none_iff, List.mem_range, rowFault?_eq_none_iff]
  constructor
  · intro h
    have entry : ∀ v w, w ∈ toList (t.row v) → w ≠ v ∧ w < t.order ∧ v ∈ toList (t.row w) := by
      intro v w hw
      rcases Nat.lt_or_ge v t.order with hv | hv
      · exact h v hv w hw
      · rw [toList_row_of_le hv] at hw
        cases hw
    exact ⟨fun v hv => (entry v v hv).1 rfl, fun v w hw => (entry v w hw).2.1,
      fun v w hw => (entry v w hw).2.2⟩
  · intro h v _ w hw
    exact ⟨fun he => h.loopless v (he ▸ hw), h.inRange v w hw, h.symmetric v w hw⟩

end Table
end MaximalCliques

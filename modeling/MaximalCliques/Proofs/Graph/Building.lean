import MaximalCliques.Proofs.Checks
import MaximalCliques.Proofs.Graph.Validation

/-!
# Building a graph from edges

Adding edges to a table either fails at the first edge with a fault, whatever the representation, or
fills the row of every vertex with its partners in the order of the edges. Such a table keeps the
rules of a graph, so it is accepted.
-/

namespace MaximalCliques

open VertexSet LawfulVertexSet

def edgeFault? (order : ℕ) (e : Edge) : Option Error :=
  if order ≤ e.1 then some (.outOfRange e.1 order)
  else if order ≤ e.2 then some (.outOfRange e.2 order)
  else if e.1 = e.2 then some (.selfLoop e.1)
  else none

/-- The vertices that edges join with `v`, in the order of the edges. -/
def partners (v : ℕ) (edges : List Edge) : List ℕ :=
  edges.filterMap fun e => if e.1 = v then some e.2 else if e.2 = v then some e.1 else none

theorem edgeFault?_eq_none_iff (order : ℕ) (e : Edge) :
    edgeFault? order e = none ↔ e.1 < order ∧ e.2 < order ∧ e.1 ≠ e.2 := by
  unfold edgeFault?
  split_ifs <;> simp <;> omega

theorem mem_partners (edges : List Edge) (v w : ℕ) :
    w ∈ partners v edges ↔ (v, w) ∈ edges ∨ (w, v) ∈ edges := by
  simp only [partners, List.mem_filterMap]
  constructor
  · rintro ⟨⟨a, b⟩, hmem, heq⟩
    split_ifs at heq with ha hb
    · simp_all
    · simp_all
  · rintro (h | h)
    · exact ⟨(v, w), h, by simp⟩
    · refine ⟨(w, v), h, ?_⟩
      by_cases hwv : w = v <;> simp [hwv]

variable {S : Type} [VertexSet S]

namespace Table

variable {t : Table S} {order v w : ℕ} {edges : List Edge}

theorem ext_row {t u : Table S} (horder : t.order = u.order)
    (hrow : ∀ v < t.order, t.row v = u.row v) : t = u := by
  obtain ⟨rows⟩ := t
  obtain ⟨rows'⟩ := u
  congr 1
  refine Array.ext horder fun v hv hv' => ?_
  simpa [row, Array.getD_eq_getD_getElem?, hv, hv'] using hrow v hv

@[simp] theorem order_blank (order : ℕ) : (blank order : Table S).order = order := by
  simp [blank, Table.order]

theorem row_blank (order v : ℕ) : (blank order : Table S).row v = empty := by
  simp only [blank, row, Array.getD_eq_getD_getElem?, Array.getElem?_replicate]
  split_ifs <;> rfl

@[simp] theorem order_link : (t.link v w).order = t.order := by
  simp [link, Table.order]

theorem row_link (hv : v < t.order) (u : ℕ) :
    (t.link v w).row u = if u = v then (insert (t.row v) w).set else t.row u := by
  simp only [link, row, Array.getD_eq_getD_getElem?, Array.getElem?_modify]
  by_cases h : v = u
  · have hlt : u < t.rows.size := h ▸ hv
    simp [h, hlt]
  · simp [h, Ne.symm h]

theorem addEdge_of_fault {e : Edge} {fault : Error} (h : edgeFault? t.order e = some fault) :
    t.addEdge e = .error fault := by
  unfold edgeFault? at h
  unfold addEdge
  split_ifs at h ⊢ <;> simp_all

theorem addEdge_of_no_fault {e : Edge} (h : edgeFault? t.order e = none) :
    t.addEdge e = .ok ((t.link e.1 e.2).link e.2 e.1) := by
  obtain ⟨hfst, hsnd, hne⟩ := (edgeFault?_eq_none_iff _ _).mp h
  rw [addEdge, if_neg (not_le.mpr hfst), if_neg (not_le.mpr hsnd), if_neg hne]

theorem row_link_link {e : Edge} (h : edgeFault? t.order e = none) (v : ℕ) :
    ((t.link e.1 e.2).link e.2 e.1).row v =
      (partners v [e]).foldl (fun s w => (insert s w).set) (t.row v) := by
  obtain ⟨hfst, hsnd, hne⟩ := (edgeFault?_eq_none_iff _ _).mp h
  have hsnd' : e.2 < (t.link e.1 e.2).order := by rwa [order_link]
  rw [row_link hsnd', row_link hfst, row_link hfst, if_neg (Ne.symm hne)]
  by_cases hv : v = e.1
  · simp [partners, hv, hne]
  · by_cases hv' : v = e.2
    · simp [partners, hv', hne]
    · simp [partners, hv, hv', Ne.symm hv, Ne.symm hv']

/-- Without faults every row receives the partners of its vertex. -/
theorem exists_foldlM_addEdge (h : edges.findSome? (edgeFault? t.order) = none) :
    ∃ u, edges.foldlM addEdge t = .ok u ∧ u.order = t.order ∧
      ∀ v, u.row v = (partners v edges).foldl (fun s w => (insert s w).set) (t.row v) := by
  induction edges generalizing t with
  | nil => exact ⟨t, rfl, rfl, fun v => rfl⟩
  | cons e edges ih =>
    obtain ⟨he, hedges⟩ : edgeFault? t.order e = none ∧
        edges.findSome? (edgeFault? t.order) = none := by
      rw [List.findSome?_cons] at h
      cases he : edgeFault? t.order e with
      | none => exact ⟨rfl, by rwa [he] at h⟩
      | some fault => simp [he] at h
    obtain ⟨u, hu, horder, hrows⟩ :=
      ih (t := (t.link e.1 e.2).link e.2 e.1) (by simpa using hedges)
    refine ⟨u, ?_, by simpa using horder, fun v => ?_⟩
    · rw [List.foldlM_cons, addEdge_of_no_fault he]
      exact hu
    · have hsplit : partners v (e :: edges) = partners v [e] ++ partners v edges :=
        List.filterMap_append (l := [e])
      rw [hrows, row_link_link he, hsplit, List.foldl_append]

theorem foldlM_addEdge_of_fault {fault : Error}
    (h : edges.findSome? (edgeFault? t.order) = some fault) :
    edges.foldlM addEdge t = .error fault := by
  induction edges generalizing t with
  | nil => simp at h
  | cons e edges ih =>
    rw [List.findSome?_cons] at h
    rw [List.foldlM_cons]
    cases he : edgeFault? t.order e with
    | some first =>
      obtain rfl : first = fault := by simpa [he] using h
      rw [addEdge_of_fault he]
      rfl
    | none =>
      rw [he] at h
      rw [addEdge_of_no_fault he]
      exact ih (by simpa using h)

variable {u : Table S} {e : Edge}

theorem edgeFault?_of_addEdge_eq_ok (h : t.addEdge e = .ok u) : edgeFault? t.order e = none := by
  by_contra hfault
  obtain ⟨fault, hsome⟩ := Option.ne_none_iff_exists'.mp hfault
  simp [addEdge_of_fault hsome] at h

theorem order_of_addEdge (h : t.addEdge e = .ok u) : u.order = t.order := by
  have hu := (addEdge_of_no_fault (edgeFault?_of_addEdge_eq_ok h)).symm.trans h
  simp [← Except.ok.inj hu]

variable [LawfulVertexSet S]

theorem mem_row_of_addEdge (h : t.addEdge e = .ok u) (v w : ℕ) :
    w ∈ toList (u.row v) ↔ e = (v, w) ∨ e = (w, v) ∨ w ∈ toList (t.row v) := by
  have hfault := edgeFault?_of_addEdge_eq_ok h
  have hu := Except.ok.inj ((addEdge_of_no_fault hfault).symm.trans h)
  have hpartners := mem_partners [e] v w
  simp only [List.mem_singleton, eq_comm (b := e)] at hpartners
  rw [← hu, row_link_link hfault, mem_toList_foldl_insert, hpartners, or_assoc]

theorem valid_blank (order : ℕ) : (blank order : Table S).Valid := by
  constructor <;> simp [row_blank, toList_empty]

theorem Valid.addEdge (h : t.Valid) (hu : t.addEdge e = .ok u) : u.Valid := by
  have hmem := mem_row_of_addEdge hu
  obtain ⟨hfst, hsnd, hne⟩ := (edgeFault?_eq_none_iff _ _).mp (edgeFault?_of_addEdge_eq_ok hu)
  constructor
  · intro v hv
    rcases (hmem v v).mp hv with rfl | rfl | hv
    · exact hne rfl
    · exact hne rfl
    · exact h.loopless v hv
  · intro v w hw
    rw [order_of_addEdge hu]
    rcases (hmem v w).mp hw with rfl | rfl | hw
    · exact hsnd
    · exact hfst
    · exact h.inRange v w hw
  · intro v w hw
    rw [hmem]
    rcases (hmem v w).mp hw with rfl | rfl | hw
    · exact .inr (.inl rfl)
    · exact .inl rfl
    · exact .inr (.inr (h.symmetric v w hw))

theorem Valid.foldlM_addEdge (h : t.Valid) (hu : edges.foldlM Table.addEdge t = .ok u) :
    u.Valid := by
  induction edges generalizing t with
  | nil =>
    obtain rfl : t = u := Except.ok.inj hu
    exact h
  | cons e edges ih =>
    rw [List.foldlM_cons] at hu
    obtain ⟨next, hnext, hu⟩ := bind_eq_ok_iff.mp hu
    exact ih (h.addEdge hnext) hu

/-- At no point of filling a table with edges are the rules broken. -/
theorem valid_of_ofEdges (h : Table.ofEdges order edges = .ok u) : u.Valid :=
  (valid_blank order).foldlM_addEdge h

end Table

namespace Graph

variable [LawfulVertexSet S] {order : ℕ} {edges : List Edge}

/-- Edges without faults give a graph whose rows hold the partners of their vertices. -/
theorem exists_ofEdges (h : edges.findSome? (edgeFault? order) = none) :
    ∃ g : Graph S, ofEdges order edges = .ok g ∧ g.order = order ∧
      ∀ v, g.neighbours v = ofList (partners v edges) := by
  obtain ⟨t, ht, horder, hrows⟩ :=
    Table.exists_foldlM_addEdge (t := (Table.blank order : Table S)) (by simpa using h)
  rw [Table.order_blank] at horder
  simp only [Table.row_blank] at hrows
  have hvalid : t.Valid := Table.valid_of_ofEdges ht
  refine ⟨⟨t, hvalid⟩, ?_, horder, hrows⟩
  rw [ofEdges, Table.ofEdges, ht]
  exact ofTable_of_valid hvalid

theorem ofEdges_of_fault {fault : Error} (h : edges.findSome? (edgeFault? order) = some fault) :
    (ofEdges order edges : Except Error (Graph S)) = .error fault := by
  rw [ofEdges, Table.ofEdges,
    Table.foldlM_addEdge_of_fault (t := (Table.blank order : Table S)) (by simpa using h)]
  rfl

end Graph
end MaximalCliques

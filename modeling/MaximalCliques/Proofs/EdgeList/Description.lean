import MaximalCliques.EdgeList
import MaximalCliques.Proofs.Graph.Building
import MaximalCliques.Proofs.Graph.Edges

/-!
# The graph that lines describe

Lines ask for orders and name edges. The order that is computed from them is the greatest they ask
for, so no vertex of an edge is out of range. If a table of this order fits, building the graph fails
at the first loop or not at all, and without loops it gives the graph that the lines describe.
-/

namespace MaximalCliques
namespace EdgeList

open VertexSet LawfulVertexSet

variable {S : Type} [VertexSet S]

def Joins (lines : List Line) (v w : ℕ) : Prop := .edge v w ∈ lines ∨ .edge w v ∈ lines

/-- The orders that lines ask for: zero, what a header says, and one more than a vertex. -/
def AsksFor (lines : List Line) (n : ℕ) : Prop :=
  n = 0 ∨ .header n ∈ lines ∨ ∃ v w, Joins lines v w ∧ n = v + 1

/-- The graph has the greatest order that the lines ask for, and their edges. -/
structure Describes (lines : List Line) (g : Graph S) : Prop where
  order : IsGreatest {n | AsksFor lines n} g.order
  adjacency : ∀ v w, g.adjacency.Adj v w ↔ Joins lines v w

variable {lines lines' before after : List Line} {v w : ℕ}

theorem Describes.unique {g h : Graph S} (hg : Describes lines g) (hh : Describes lines' h)
    (hasks : ∀ n, AsksFor lines n ↔ AsksFor lines' n)
    (hjoins : ∀ v w, Joins lines v w ↔ Joins lines' v w) :
    h.order = g.order ∧ h.adjacency = g.adjacency := by
  constructor
  · apply hh.order.unique
    simpa only [← hasks] using hg.order
  · ext v w
    rw [hg.adjacency, hh.adjacency, hjoins]

/-! ## The order that lines ask for -/

theorem order_eq_sup (lines : List Line) : order lines = lines.toFinset.sup Line.order :=
  max?_getD_map Line.order lines

theorem order_le_order {line : Line} (h : line ∈ lines) : line.order ≤ order lines := by
  rw [order_eq_sup]
  exact Finset.le_sup (List.mem_toFinset.mpr h)

theorem asksFor_order_of_mem {line : Line} (h : line ∈ lines) : AsksFor lines line.order := by
  cases line with
  | blank => exact .inl rfl
  | header n => exact .inr (.inl h)
  | edge v w =>
    rcases max_choice (v + 1) (w + 1) with hmax | hmax
    · exact .inr (.inr ⟨v, w, .inl h, hmax⟩)
    · exact .inr (.inr ⟨w, v, .inr h, hmax⟩)

theorem asksFor_order (lines : List Line) : AsksFor lines (order lines) := by
  rcases lines.eq_nil_or_concat' with rfl | ⟨front, last, rfl⟩
  · exact .inl rfl
  · obtain ⟨line, hline, hsup⟩ := Finset.exists_mem_eq_sup (front ++ [last]).toFinset
      ⟨last, by simp⟩ Line.order
    rw [order_eq_sup, hsup]
    exact asksFor_order_of_mem (List.mem_toFinset.mp hline)

theorem lt_order_of_joins (h : Joins lines v w) : v < order lines := by
  rcases h with h | h
  · exact lt_of_lt_of_le (Nat.lt_of_succ_le (le_max_left _ _)) (order_le_order h)
  · exact lt_of_lt_of_le (Nat.lt_of_succ_le (le_max_right _ _)) (order_le_order h)

theorem isGreatest_order (lines : List Line) : IsGreatest {n | AsksFor lines n} (order lines) := by
  constructor
  · exact asksFor_order lines
  · rintro n (rfl | hheader | ⟨v, w, hjoins, rfl⟩)
    · exact Nat.zero_le _
    · exact order_le_order hheader
    · exact lt_order_of_joins hjoins

variable (S) in
theorem fits_order_iff :
    Table.Fits S (order lines) ↔ ∀ n, AsksFor lines n → n * VertexSet.bytes S < 2 ^ 63 := by
  constructor
  · intro h n hn
    have hle : n ≤ order lines := (isGreatest_order lines).2 hn
    exact lt_of_le_of_lt (Nat.mul_le_mul_right _ hle) h
  · exact fun h => h _ (asksFor_order lines)

/-! ## The graph of lines -/

theorem mem_edges_iff : (v, w) ∈ edges lines ↔ .edge v w ∈ lines := by
  rw [edges, List.mem_filterMap]
  constructor
  · rintro ⟨line, hline, hedge⟩
    cases line with
    | edge a b =>
      obtain ⟨rfl, rfl⟩ : a = v ∧ b = w := by simpa [Line.edge?] using hedge
      exact hline
    | _ => simp [Line.edge?] at hedge
  · exact fun h => ⟨.edge v w, h, rfl⟩

/-- The order that lines ask for is never too small for their edges. -/
theorem edgeFault?_order {e : Edge} (h : e ∈ edges lines) :
    edgeFault? (order lines) e = if e.1 = e.2 then some (.selfLoop e.1) else none := by
  have hfst : e.1 < order lines := lt_order_of_joins (.inl (mem_edges_iff.mp h))
  have hsnd : e.2 < order lines := lt_order_of_joins (.inr (mem_edges_iff.mp h))
  rw [edgeFault?, if_neg (not_le.mpr hfst), if_neg (not_le.mpr hsnd)]

theorem findSome?_edgeFault?_of_loopless (hlines : ∀ line ∈ before, line ∈ lines)
    (h : ∀ v, .edge v v ∉ before) :
    (edges before).findSome? (edgeFault? (order lines)) = none := by
  rw [List.findSome?_eq_none_iff]
  rintro ⟨v, w⟩ he
  have hmem : .edge v w ∈ before := mem_edges_iff.mp he
  have hne : v ≠ w := by
    rintro rfl
    exact h v hmem
  rw [edgeFault?_order (mem_edges_iff.mpr (hlines _ hmem)), if_neg hne]

theorem exists_first_loop (h : ¬ ∀ v, .edge v v ∉ lines) :
    ∃ before v after, lines = before ++ .edge v v :: after ∧ ∀ u, .edge u u ∉ before := by
  induction lines with
  | nil => simp at h
  | cons line lines ih =>
    by_cases hline : ∃ v, line = .edge v v
    · obtain ⟨v, rfl⟩ := hline
      exact ⟨[], v, lines, rfl, by simp⟩
    · have hmore : ¬ ∀ v, .edge v v ∉ lines := by
        intro hall
        apply h
        intro v hmem
        rcases List.mem_cons.mp hmem with heq | hmem
        · exact hline ⟨v, heq.symm⟩
        · exact hall v hmem
      obtain ⟨before, v, after, rfl, hbefore⟩ := ih hmore
      refine ⟨line :: before, v, after, rfl, fun u hu => ?_⟩
      rcases List.mem_cons.mp hu with heq | hu
      · exact hline ⟨u, heq.symm⟩
      · exact hbefore u hu

variable [LawfulVertexSet S]

theorem ofLines_of_fits (h : Table.Fits S (order lines)) :
    (Graph.ofLines lines : Except Error (Graph S)) = Graph.ofEdges (order lines) (edges lines) :=
  if_pos h

theorem ofLines_of_not_fits (h : ¬ Table.Fits S (order lines)) :
    (Graph.ofLines lines : Except Error (Graph S)) = .error .capacityOverflow :=
  if_neg h

theorem exists_ofLines_describes (hfits : Table.Fits S (order lines))
    (h : ∀ v, .edge v v ∉ lines) :
    ∃ g : Graph S, Graph.ofLines lines = .ok g ∧ Describes lines g := by
  obtain ⟨g, hg, horder, hrows⟩ := Graph.exists_ofEdges (S := S)
    (findSome?_edgeFault?_of_loopless (fun _ hline => hline) h)
  have hadj : ∀ v w, g.adjacency.Adj v w ↔ Joins lines v w := by
    intro v w
    rw [Graph.adj_iff, hrows, mem_ofList, mem_partners, mem_edges_iff, mem_edges_iff, Joins]
  exact ⟨g, (ofLines_of_fits hfits).trans hg, horder ▸ isGreatest_order lines, hadj⟩

theorem ofLines_of_loop (hfits : Table.Fits S (order lines))
    (hlines : lines = before ++ .edge v v :: after) (hbefore : ∀ u, .edge u u ∉ before) :
    (Graph.ofLines lines : Except Error (Graph S)) = .error (.selfLoop v) := by
  have hloop : edgeFault? (order lines) (v, v) = some (.selfLoop v) := by
    rw [edgeFault?_order (mem_edges_iff.mpr (by simp [hlines])), if_pos rfl]
  have hsub : ∀ line ∈ before, line ∈ lines := fun line hline =>
    hlines ▸ List.mem_append_left _ hline
  have hfront := findSome?_edgeFault?_of_loopless hsub hbefore
  have hsplit : edges lines = edges before ++ (v, v) :: edges after := by
    simp [hlines, edges, Line.edge?]
  rw [ofLines_of_fits hfits]
  apply Graph.ofEdges_of_fault
  rw [hsplit, List.findSome?_append, hfront, Option.none_or, List.findSome?_cons, hloop]

theorem ofLines_cases (S : Type) [VertexSet S] [LawfulVertexSet S] (lines : List Line) :
    (Table.Fits S (order lines) ∧ (∀ v, .edge v v ∉ lines) ∧
      ∃ g : Graph S, Graph.ofLines lines = .ok g ∧ Describes lines g) ∨
    (Graph.ofLines lines : Except Error (Graph S)) = .error .capacityOverflow ∨
    ∃ v, (Graph.ofLines lines : Except Error (Graph S)) = .error (.selfLoop v) := by
  by_cases hfits : Table.Fits S (order lines)
  · by_cases hloop : ∀ v, .edge v v ∉ lines
    · exact .inl ⟨hfits, hloop, exists_ofLines_describes hfits hloop⟩
    · obtain ⟨before, v, after, hsplit, hbefore⟩ := exists_first_loop hloop
      exact .inr (.inr ⟨v, ofLines_of_loop hfits hsplit hbefore⟩)
  · exact .inr (.inl (ofLines_of_not_fits hfits))

end EdgeList
end MaximalCliques

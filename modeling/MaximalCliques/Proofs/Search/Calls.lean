import MaximalCliques.Proofs.Search.Roots

/-!
# The calls of a search

`Visit.trace` is a visit that also notes every call that it makes: the frame entered and the stack
at that moment. Every call that starts from the whole graph or from a root fits its stack: the stack
is a clique, some candidate is left, no candidate is excluded, and candidates and excluded vertices
together are all vertices that are adjacent to the whole stack. The loop over siblings keeps this,
since a vertex only moves from the candidates to the excluded vertices.
-/

namespace MaximalCliques

open VertexSet LawfulVertexSet

variable {S : Type}

/-- The frame that a call enters and the stack at that moment. -/
structure Call (S : Type) where
  frame : Frame S
  stack : List ℕ

namespace Visit

def traceStep (search : Frame S → List ℕ → Visit × List (Call S)) :
    Visit × List (Call S) → Step S → Visit × List (Call S)
  | (visit, calls), .report v => (⟨visit.reported ++ [visit.stack ++ [v]], visit.stack⟩, calls)
  | (visit, calls), .descend v sub =>
    let inner := search sub (visit.stack ++ [v])
    (⟨visit.reported ++ inner.1.reported, inner.1.stack.dropLast⟩, calls ++ inner.2)

/-- A visit together with its calls, outer ones first. -/
def trace (expand : Frame S → List (Step S)) : ℕ → Frame S → List ℕ → Visit × List (Call S)
  | 0, frame, stack => (⟨[], stack⟩, [⟨frame, stack⟩])
  | depth + 1, frame, stack =>
    (expand frame).foldl (traceStep (trace expand depth)) (⟨[], stack⟩, [⟨frame, stack⟩])

def deeperCalls (calls : Frame S → List ℕ → List (Call S)) (stack : List ℕ) :
    Step S → List (Call S)
  | .report _ => []
  | .descend v sub => calls sub (stack ++ [v])

theorem foldl_traceStep {search : Frame S → List ℕ → Visit × List (Call S)}
    (h : ∀ f stack, (search f stack).1.stack = stack) (steps : List (Step S)) (visit : Visit)
    (calls : List (Call S)) :
    steps.foldl (traceStep search) (visit, calls) =
      (steps.foldl (perform fun f stack => (search f stack).1) visit,
        calls ++ steps.flatMap (deeperCalls (fun f stack => (search f stack).2) visit.stack)) := by
  induction steps generalizing visit calls with
  | nil => simp
  | cons step steps ih =>
    rw [List.foldl_cons, List.foldl_cons]
    cases step with
    | report v => simp [traceStep, perform, deeperCalls, ih]
    | descend v sub => simp [traceStep, perform, deeperCalls, ih, h]

/-- Noting the calls does not change a visit. -/
theorem trace_fst (expand : Frame S → List (Step S)) (depth : ℕ) (f : Frame S) (stack : List ℕ) :
    (trace expand depth f stack).1 = run expand depth f stack := by
  induction depth generalizing f stack with
  | zero => rfl
  | succ depth ih =>
    have hstack : ∀ f stack, (trace expand depth f stack).1.stack = stack := by
      intro f stack
      rw [ih, run_eq]
    have hsame : (fun f stack => (trace expand depth f stack).1) = run expand depth := by
      funext f stack
      exact ih f stack
    rw [trace, foldl_traceStep hstack, hsame, run_succ]

theorem trace_snd_succ (expand : Frame S → List (Step S)) (depth : ℕ) (f : Frame S)
    (stack : List ℕ) :
    (trace expand (depth + 1) f stack).2 =
      ⟨f, stack⟩ :: (expand f).flatMap
        (deeperCalls (fun f stack => (trace expand depth f stack).2) stack) := by
  have hstack : ∀ f stack, (trace expand depth f stack).1.stack = stack := by
    intro f stack
    rw [trace_fst, run_eq]
  rw [trace, foldl_traceStep hstack]
  rfl

end Visit

variable [VertexSet S]

namespace Graph

variable (g : Graph S)

def calls (choice : Option PivotChoice) (f : Frame S) (stack : List ℕ) : List (Call S) :=
  (Visit.trace (Frame.steps g choice) (VertexSet.size f.candidates) f stack).2

/-- The calls of the searches with a pivot choice: from the whole graph, which has none if every
vertex is isolated, and from the roots. -/
inductive Makes : Option PivotChoice → Call S → Prop
  | whole {choice c} (hsome : isEmpty g.connectedVertices = false)
      (h : c ∈ g.calls choice g.wholeFrame []) : Makes choice c
  | root {choice root c} (hroot : root ∈ g.roots)
      (h : c ∈ g.calls (some choice) root.frame [root.vertex]) : Makes (some choice) c

theorem makes_iff {g : Graph S} {choice : Option PivotChoice} {c : Call S} : g.Makes choice c ↔
    (isEmpty g.connectedVertices = false ∧ c ∈ g.calls choice g.wholeFrame []) ∨
      ∃ root ∈ g.roots, choice ≠ none ∧ c ∈ g.calls choice root.frame [root.vertex] := by
  constructor
  · rintro (⟨hsome, h⟩ | ⟨hroot, h⟩)
    · exact .inl ⟨hsome, h⟩
    · exact .inr ⟨_, hroot, nofun, h⟩
  · rintro (⟨hsome, h⟩ | ⟨root, hroot, hchoice, h⟩)
    · exact .whole hsome h
    · obtain ⟨pivot, rfl⟩ := Option.ne_none_iff_exists'.mp hchoice
      exact .root hroot h

/-- The vertices with neighbours that are adjacent to a whole stack. -/
def fitting (stack : List ℕ) : Set ℕ :=
  g.adjacency.support ∩ {v | ∀ w ∈ stack, g.adjacency.Adj w v}

section Bound

variable [LawfulVertexSet S] (choice : Option PivotChoice)

theorem calls_eq_trace {depth : ℕ} {f : Frame S} (h : VertexSet.size f.candidates ≤ depth) :
    g.calls choice f = fun stack => (Visit.trace (Frame.steps g choice) depth f stack).2 := by
  apply Frame.eq_of_size_le g choice (F := fun depth f stack =>
    (Visit.trace (Frame.steps g choice) depth f stack).2) _ _ le_rfl h
  · intro f hnil bound
    cases bound with
    | zero => rfl
    | succ bound => simp [Visit.trace, hnil]
  · intro m n f hsub
    funext stack
    rw [Visit.trace_snd_succ, Visit.trace_snd_succ]
    congr 1
    apply List.flatMap_congr
    intro step hstep
    cases step with
    | report v => rfl
    | descend v sub => exact congrFun (hsub v sub hstep) (stack ++ [v])

theorem calls_eq (f : Frame S) (stack : List ℕ) :
    g.calls choice f stack =
      ⟨f, stack⟩ :: (f.steps g choice).flatMap (Visit.deeperCalls (g.calls choice) stack) := by
  rw [g.calls_eq_trace choice (Nat.le_succ _)]
  dsimp only
  rw [Visit.trace_snd_succ]
  congr 1
  apply List.flatMap_congr
  intro step hstep
  cases step with
  | report v => rfl
  | descend v sub =>
    have hlt := (Frame.descends_of_mem_steps hstep).size_lt
    simp only [Visit.deeperCalls, g.calls_eq_trace choice hlt.le]

/-- What every descent hands down holds of all calls, by induction on the candidates left. -/
theorem calls_induct {P : Call S → Prop}
    (hdescend : ∀ (c : Call S) v sub, P c → c.frame.Descends g v sub → P ⟨sub, c.stack ++ [v]⟩)
    {c : Call S} (hc : P c) {d : Call S} (hd : d ∈ g.calls choice c.frame c.stack) : P d := by
  induction hsize : VertexSet.size c.frame.candidates using Nat.strong_induction_on
    generalizing c with
  | _ n ih =>
    rw [g.calls_eq, List.mem_cons] at hd
    rcases hd with rfl | hd
    · exact hc
    · obtain ⟨step, hstep, hd⟩ := List.mem_flatMap.mp hd
      cases step with
      | report v => simp [Visit.deeperCalls] at hd
      | descend v sub =>
        have hdown := Frame.descends_of_mem_steps hstep
        exact ih _ (hsize ▸ hdown.size_lt) (hdescend c v sub hc hdown) hd rfl

end Bound

theorem fitting_nil : g.fitting [] = g.adjacency.support := by
  ext v
  simp [fitting]

theorem fitting_append (stack : List ℕ) (v : ℕ) :
    g.fitting (stack ++ [v]) = g.fitting stack ∩ g.adjacency.neighborSet v := by
  ext w
  constructor
  · rintro ⟨hw, hall⟩
    exact ⟨⟨hw, fun u hu => hall u (List.mem_append_left _ hu)⟩, hall v (by simp)⟩
  · rintro ⟨⟨hw, hall⟩, hv⟩
    refine ⟨hw, fun u hu => ?_⟩
    rcases List.mem_append.mp hu with hu | hu
    · exact hall u hu
    · exact List.mem_singleton.mp hu ▸ hv

theorem mem_fitting_of_ne_nil {stack : List ℕ} (h : stack ≠ []) (v : ℕ) :
    v ∈ g.fitting stack ↔ ∀ w ∈ stack, g.adjacency.Adj w v := by
  constructor
  · exact fun hv => hv.2
  · intro hall
    obtain ⟨w, hw⟩ := List.exists_mem_of_ne_nil _ h
    exact ⟨g.adjacency.mem_support.mpr ⟨w, (hall w hw).symm⟩, hall⟩

end Graph

theorem Frame.isWithin_of_lt_order {g : Graph S} (f : Frame S) (choice : Option PivotChoice)
    (h : ∀ v ∈ f.vertexSet, v < g.order) : f.isWithin g choice = true := by
  unfold isWithin lookups
  simp only [List.all_eq_true, decide_eq_true_eq]
  intro v hv
  apply h
  split_ifs at hv
  · exact List.mem_append.mp hv
  · exact Or.inl hv

namespace Call

/-- The frame of a call belongs to its stack. -/
structure Fits (g : Graph S) (c : Call S) : Prop where
  nonempty : toList c.frame.candidates ≠ []
  separated : c.frame.Separated
  clique : c.stack.Pairwise g.adjacency.Adj
  vertexSet_eq : c.frame.vertexSet = g.fitting c.stack

variable {g : Graph S} {c : Call S}

theorem Fits.descend (h : c.Fits g) {v : ℕ} {sub : Frame S} (hsub : c.frame.Descends g v sub) :
    Fits g ⟨sub, c.stack ++ [v]⟩ := by
  have hv : v ∈ g.fitting c.stack := h.vertexSet_eq ▸ Or.inl hsub.mem
  refine ⟨hsub.nonempty, hsub.separated h.separated, ?_, ?_⟩
  · rw [List.pairwise_append]
    exact ⟨h.clique, List.pairwise_singleton _ v,
      fun w hw u hu => List.mem_singleton.mp hu ▸ hv.2 w hw⟩
  · rw [hsub.vertexSet_eq, h.vertexSet_eq, Graph.fitting_append]

theorem Fits.mem_support (h : c.Fits g) {v : ℕ} (hv : v ∈ c.frame.vertexSet) :
    v ∈ g.adjacency.support := by
  rw [h.vertexSet_eq] at hv
  exact hv.1

theorem Fits.lt_order (h : c.Fits g) {v : ℕ} (hv : v ∈ c.frame.vertexSet) : v < g.order := by
  obtain ⟨w, hadj⟩ := g.adjacency.mem_support.mp (h.mem_support hv)
  exact Graph.lt_order_of_adj hadj

theorem Fits.isWithin (h : c.Fits g) (choice : Option PivotChoice) :
    c.frame.isWithin g choice = true :=
  c.frame.isWithin_of_lt_order choice fun _ hv => h.lt_order hv

theorem Fits.length_lt_cliqueNum (h : c.Fits g) : c.stack.length < g.adjacency.cliqueNum := by
  obtain ⟨v, hv⟩ := List.exists_mem_of_ne_nil _ h.nonempty
  have hfit : v ∈ g.fitting c.stack := h.vertexSet_eq ▸ Or.inl hv
  have hpair : (v :: c.stack).Pairwise g.adjacency.Adj :=
    List.pairwise_cons.mpr ⟨fun w hw => (hfit.2 w hw).symm, h.clique⟩
  have hnodup : (v :: c.stack).Nodup := hpair.imp fun hadj => hadj.ne
  have hclique : g.adjacency.IsClique ((v :: c.stack).toFinset : Finset ℕ) := by
    intro u hu w hw hne
    rw [Finset.mem_coe, List.mem_toFinset] at hu hw
    have := g.adjacency.symm
    exact hpair.forall hu hw hne
  have hcard := Graph.card_le_cliqueNum hclique
  rw [List.toFinset_card_of_nodup hnodup, List.length_cons] at hcard
  exact hcard

variable [LawfulVertexSet S]

theorem Fits.of_mem_calls {choice : Option PivotChoice} (h : c.Fits g) {d : Call S}
    (hd : d ∈ g.calls choice c.frame c.stack) : d.Fits g :=
  g.calls_induct choice (fun _ _ _ h hsub => h.descend hsub) h hd

theorem fits_wholeFrame (hsome : isEmpty g.connectedVertices = false) :
    Fits g ⟨g.wholeFrame, []⟩ := by
  refine ⟨(VertexSet.isEmpty_eq_false_iff _).mp hsome, g.separated_wholeFrame, List.Pairwise.nil, ?_⟩
  rw [g.vertexSet_wholeFrame, g.fitting_nil]

theorem fits_root {root : Root S} (h : root ∈ g.roots) : Fits g ⟨root.frame, [root.vertex]⟩ := by
  obtain ⟨v, earlier, rfl, hne⟩ := Root.exists_of_mem_among g h
  refine ⟨hne, Root.separated_ofVertex g v earlier, List.pairwise_singleton _ _, ?_⟩
  rw [Root.vertexSet_ofVertex]
  ext w
  rw [g.mem_fitting_of_ne_nil (by simp)]
  simp [Root.ofVertex]

/-- Every call of every search belongs to its stack. -/
theorem fits_of_makes {choice : Option PivotChoice} (h : g.Makes choice c) : c.Fits g := by
  cases h with
  | whole hsome h => exact (fits_wholeFrame hsome).of_mem_calls h
  | root hroot h => exact (fits_root hroot).of_mem_calls h

/-- A call reports no single vertex: on an empty stack the vertex would have a neighbour in the
frame. -/
theorem Fits.stack_ne_nil_of_report (h : c.Fits g) {choice : Option PivotChoice} {v : ℕ}
    (hv : .report v ∈ c.frame.steps g choice) : c.stack ≠ [] := by
  intro hnil
  have hreported : [v] ∈ g.extensions choice c.frame := by
    rw [g.extensions_eq]
    exact List.mem_flatMap.mpr ⟨_, hv, List.mem_singleton_self _⟩
  have hext := (g.enumerates_extensions choice _ h.separated).of_mem hreported
  have hcand : v ∈ c.frame.candidateSet := hext.subset v (by simp)
  obtain ⟨w, hadj⟩ := g.adjacency.mem_support.mp (h.mem_support (Or.inl hcand))
  have hw : w ∈ c.frame.vertexSet := by
    rw [h.vertexSet_eq, hnil, g.fitting_nil]
    exact g.adjacency.mem_support.mpr ⟨v, hadj.symm⟩
  have hsingle : c.frame.IsExtension g {v} := by simpa using hext
  exact (isExtension_singleton hcand).mp hsingle w hw hadj

end Call

namespace Graph

variable [LawfulVertexSet S] (g : Graph S)

/-- Every call of every search finds candidates, none of them excluded, and a stack of neighbours of
each other; its candidates and excluded vertices are the vertices that are adjacent to the whole
stack, or all that have a neighbour if the stack is empty. It looks at vertices of the graph alone,
its stack is smaller than the largest clique, and no clique that it reports is a single vertex.

The searches are that of the whole graph, if some vertex has a neighbour, and those of the roots. A
visit and its calls are traced together. Vertices are listed up to the order cut to 32 bits, which is
the order itself as long as every vertex has an id. -/
theorem frame_invariant :
    (∀ choice c, g.Makes choice c →
      isEmpty c.frame.candidates = false ∧
      isDisjoint c.frame.candidates c.frame.excluded = true ∧
      c.stack.Pairwise g.adjacency.Adj ∧
      (c.stack = [] → ∀ v,
        v ∈ toList c.frame.candidates ∨ v ∈ toList c.frame.excluded ↔ 0 < g.degree v) ∧
      (c.stack ≠ [] → ∀ v,
        v ∈ toList c.frame.candidates ∨ v ∈ toList c.frame.excluded ↔
          ∀ w ∈ c.stack, g.adjacency.Adj w v) ∧
      (∀ v, v ∈ toList c.frame.candidates ∨ v ∈ toList c.frame.excluded → v < g.order) ∧
      c.frame.isWithin g choice = true ∧
      c.stack.length < g.adjacency.cliqueNum ∧
      ∀ v, .report v ∈ c.frame.steps g choice → 1 < (c.stack ++ [v]).length) ∧
    (∀ v ∈ g.degeneracyOrder, v < g.order) ∧
    (∀ choice c, g.Makes choice c ↔
      (isEmpty g.connectedVertices = false ∧ c ∈ g.calls choice g.wholeFrame []) ∨
      ∃ root ∈ g.roots, choice ≠ none ∧ c ∈ g.calls choice root.frame [root.vertex]) ∧
    (∀ choice, g.searchWhole choice =
      if isEmpty g.connectedVertices then [] else (g.visit choice g.wholeFrame []).reported) ∧
    (∀ choice root, Root.search g choice root =
      (g.visit (some choice) root.frame [root.vertex]).reported) ∧
    (∀ choice f stack, Visit.trace (Frame.steps g choice) (VertexSet.size f.candidates) f stack =
      (g.visit choice f stack, g.calls choice f stack)) ∧
    (g.order < vertexBound → g.vertices = List.range (g.order % vertexBound)) := by
  refine ⟨?_, ?_, fun choice c => makes_iff, fun _ => rfl, fun _ _ => rfl,
    fun choice f stack => Prod.ext (Visit.trace_fst _ _ f stack) rfl, fun horder => ?_⟩
  · intro choice c hc
    have h := Call.fits_of_makes hc
    refine ⟨?_, (isDisjoint_iff _ _).mpr h.separated, h.clique, ?_, ?_, fun v hv => h.lt_order hv,
      h.isWithin choice, h.length_lt_cliqueNum, ?_⟩
    · rw [← Bool.not_eq_true, VertexSet.isEmpty_iff]
      exact h.nonempty
    · intro hnil v
      rw [g.degree_pos_iff, ← g.fitting_nil, ← hnil, ← h.vertexSet_eq]
      rfl
    · intro hne v
      rw [← g.mem_fitting_of_ne_nil hne, ← h.vertexSet_eq]
      rfl
    · intro v hv
      have := List.length_pos_iff.mpr (h.stack_ne_nil_of_report hv)
      rw [List.length_append, List.length_singleton]
      omega
  · intro v hv
    obtain ⟨w, hadj⟩ := g.adjacency.mem_support.mp ((g.mem_degeneracyOrder v).mp hv)
    exact lt_order_of_adj hadj
  · rw [Nat.mod_eq_of_lt horder, vertices]

/-- The second call on the diamond without a pivot choice. -/
theorem frame_invariant_diamond :
    ∃ c, diamond.Makes none c ∧ c.stack = [0] ∧ toList c.frame.candidates = [1, 2] ∧
      isEmpty c.frame.candidates = false ∧
      isDisjoint c.frame.candidates c.frame.excluded = true ∧
      (∀ v, v ∈ toList c.frame.candidates ∨ v ∈ toList c.frame.excluded ↔
        ∀ w ∈ c.stack, diamond.adjacency.Adj w v) ∧
      c.stack.length < diamond.adjacency.cliqueNum := by
  have hsome : isEmpty diamond.connectedVertices = false := by decide +kernel
  have hcall : ∃ c ∈ diamond.calls none diamond.wholeFrame [],
      c.stack = [0] ∧ toList c.frame.candidates = [1, 2] := by
    decide +kernel
  obtain ⟨c, hc, hstack, hcandidates⟩ := hcall
  have hmakes : diamond.Makes none c := .whole hsome hc
  obtain ⟨hempty, hdisjoint, -, -, hunion, -, -, hdepth, -⟩ :=
    diamond.frame_invariant.1 none c hmakes
  exact ⟨c, hmakes, hstack, hcandidates, hempty, hdisjoint, hunion (by simp [hstack]), hdepth⟩

end Graph
end MaximalCliques

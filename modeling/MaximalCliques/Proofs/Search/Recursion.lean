import MaximalCliques.Proofs.Search.Plan
import MaximalCliques.Search.Visit

/-!
# The recursion of a visit

A frame is descended from only into frames with fewer candidates, so the bound on the depth of a
visit is never met and the visit of a frame is the visits of its subframes put together. The stack
comes back as it went in, and all that it does is to stand in front of every clique reported.
-/

namespace MaximalCliques

open VertexSet LawfulVertexSet

variable {S : Type}

/-- One step of a visit, if `search` visits the frames below. -/
def Visit.perform (search : Frame S → List ℕ → Visit) (visit : Visit) : Step S → Visit
  | .report v => ⟨visit.reported ++ [visit.stack ++ [v]], visit.stack⟩
  | .descend v sub =>
    let inner := search sub (visit.stack ++ [v])
    ⟨visit.reported ++ inner.reported, inner.stack.dropLast⟩

/-- What a step adds to the stack, clique by clique, if `search` does so for the frames below. -/
def Step.cliques (search : Frame S → List Clique) : Step S → List Clique
  | report v => [[v]]
  | descend v sub => (search sub).map (v :: ·)

namespace Visit

theorem run_succ (expand : Frame S → List (Step S)) (depth : ℕ) (f : Frame S) (stack : List ℕ) :
    run expand (depth + 1) f stack = (expand f).foldl (perform (run expand depth)) ⟨[], stack⟩ := by
  rfl

theorem foldl_perform {search : Frame S → List ℕ → Visit} {found : Frame S → List Clique}
    (h : ∀ f stack, search f stack = ⟨(found f).map (stack ++ ·), stack⟩) (steps : List (Step S))
    (visit : Visit) :
    steps.foldl (perform search) visit =
      ⟨visit.reported ++ (steps.flatMap (Step.cliques found)).map (visit.stack ++ ·),
        visit.stack⟩ := by
  induction steps generalizing visit with
  | nil => simp
  | cons step steps ih =>
    rw [List.foldl_cons, ih]
    cases step with
    | report v => simp [perform, Step.cliques]
    | descend v sub => simp [perform, Step.cliques, h, Function.comp_def]

/-- A visit restores its stack, which stands in front of everything that the visit reports. -/
theorem run_eq (expand : Frame S → List (Step S)) (depth : ℕ) (f : Frame S) (stack : List ℕ) :
    run expand depth f stack = ⟨(run expand depth f []).reported.map (stack ++ ·), stack⟩ := by
  induction depth generalizing f stack with
  | zero => rfl
  | succ depth ih =>
    rw [run_succ, run_succ, foldl_perform ih, foldl_perform ih]
    simp

theorem reported_run_succ (expand : Frame S → List (Step S)) (depth : ℕ) (f : Frame S) :
    (run expand (depth + 1) f []).reported =
      (expand f).flatMap (Step.cliques fun sub => (run expand depth sub []).reported) := by
  rw [run_succ, foldl_perform fun f stack => run_eq expand depth f stack]
  simp

end Visit

variable [VertexSet S]

namespace Frame

/-- What the loop over siblings hands down when it branches on a candidate. -/
structure Descends (g : Graph S) (f : Frame S) (v : ℕ) (sub : Frame S) : Prop where
  mem : v ∈ toList f.candidates
  nonempty : toList sub.candidates ≠ []
  subset : sub.candidateSet ⊆ f.candidateSet
  vertexSet_eq : sub.vertexSet = f.vertexSet ∩ g.adjacency.neighborSet v
  separated : f.Separated → sub.Separated

variable [LawfulVertexSet S] {g : Graph S} {f sub : Frame S} {v : ℕ}

/-- Descending after a sibling is descending: the sibling only changed sides. -/
theorem Descends.of_pass {u : ℕ} (hu : u ∈ toList f.candidates)
    (h : (f.pass u).Descends g v sub) : f.Descends g v sub := by
  have hsub : (f.pass u).candidateSet ⊆ f.candidateSet := by
    rw [candidateSet_pass]
    exact Set.inter_subset_left
  refine ⟨hsub h.mem, h.nonempty, h.subset.trans hsub, ?_, fun hf => h.separated (hf.pass u)⟩
  rw [h.vertexSet_eq, vertexSet_pass hu]

theorem descends_below (hv : v ∈ toList f.candidates)
    (hne : toList (f.below g v).candidates ≠ []) : f.Descends g v (f.below g v) := by
  refine ⟨hv, hne, ?_, vertexSet_below g f v, fun hf w hw => ?_⟩
  · rw [candidateSet_below]
    exact Set.inter_subset_left
  · simp only [below, restrict, mem_intersection, mem_remove] at hw ⊢
    exact fun hx => hf w hw.2.1 hx.2

theorem descends_of_mem_branches {vs : List ℕ} (hnd : vs.Nodup)
    (hvs : ∀ u ∈ vs, u ∈ toList f.candidates) (h : .descend v sub ∈ branches g none vs f) :
    f.Descends g v sub := by
  induction vs generalizing f with
  | nil => simp [branches] at h
  | cons u vs ih =>
    rw [branches_cons, List.mem_append] at h
    obtain ⟨hfresh, hnd⟩ := List.nodup_cons.mp hnd
    have hu : u ∈ toList f.candidates := hvs u (by simp)
    rcases h with h | h
    · unfold branch at h
      dsimp only at h
      split_ifs at h with hempty hcloses
      · simp at h
      · simp at h
      · obtain ⟨rfl, rfl⟩ : v = u ∧ sub = _ := by simpa using h
        refine descends_below hu ?_
        rwa [VertexSet.isEmpty_iff] at hempty
    · refine Descends.of_pass hu (ih hnd (fun w hw => ?_) h)
      exact (mem_remove _ _ _).mpr ⟨hvs w (by simp [hw]), fun heq => hfresh (heq ▸ hw)⟩

theorem descends_of_mem_steps {choice : Option PivotChoice}
    (h : .descend v sub ∈ f.steps g choice) : f.Descends g v sub := by
  obtain ⟨isolated, branched, hsteps, hplan⟩ := exists_plan g choice f
  rw [hsteps, List.mem_append] at h
  rcases h with h | h
  · simp [reports] at h
  · refine descends_of_mem_branches ((List.nodup_append'.mp hplan.nodup).2.1) (fun u hu => ?_) h
    exact hplan.subset u (List.mem_append_right _ hu)

theorem Descends.size_lt (h : f.Descends g v sub) : size sub.candidates < size f.candidates := by
  rw [size_eq_length, size_eq_length]
  have hv : v ∉ toList sub.candidates := fun hv =>
    g.adjacency.loopless.irrefl v (h.vertexSet_eq.subset (Or.inl hv)).2
  have hsub : v :: toList sub.candidates ⊆ toList f.candidates := by
    intro w hw
    rcases List.mem_cons.mp hw with rfl | hw
    · exact h.mem
    · exact h.subset hw
  exact (List.nodup_cons.mpr ⟨hv, nodup_toList _⟩).length_le_of_subset hsub

theorem steps_eq_nil (g : Graph S) (choice : Option PivotChoice) (h : size f.candidates = 0) :
    f.steps g choice = [] := by
  rw [size_eq_length, List.length_eq_zero_iff] at h
  obtain ⟨isolated, branched, hsteps, hplan⟩ := exists_plan g choice f
  have hnil : isolated ++ branched = [] := by
    rw [List.eq_nil_iff_forall_not_mem]
    intro v hv
    simpa [h] using hplan.subset v hv
  obtain ⟨rfl, rfl⟩ := List.append_eq_nil_iff.mp hnil
  simp [hsteps, reports, branches]

/-- A recursion that descends with a bound gives the same from the number of candidates on. -/
theorem eq_of_size_le {α : Type*} (g : Graph S) (choice : Option PivotChoice)
    {F : ℕ → Frame S → α}
    (hnil : ∀ f, f.steps g choice = [] → ∀ bound, F bound f = F 0 f)
    (hsucc : ∀ m n f, (∀ v sub, .descend v sub ∈ f.steps g choice → F m sub = F n sub) →
      F (m + 1) f = F (n + 1) f)
    {m n : ℕ} (hm : size f.candidates ≤ m) (hn : size f.candidates ≤ n) :
    F m f = F n f := by
  induction m generalizing n f with
  | zero => exact (hnil f (steps_eq_nil g choice (Nat.le_zero.mp hm)) n).symm
  | succ m ih =>
    cases n with
    | zero => exact hnil f (steps_eq_nil g choice (Nat.le_zero.mp hn)) (m + 1)
    | succ n =>
      apply hsucc
      intro v sub hsub
      have hlt := (descends_of_mem_steps hsub).size_lt
      exact ih (by omega) (by omega)

end Frame

namespace Graph

variable (g : Graph S) (choice : Option PivotChoice)

/-- What the visit of a frame adds to its stack, clique by clique. -/
def extensions (f : Frame S) : List Clique := (g.visit choice f []).reported

theorem visit_eq (f : Frame S) (stack : List ℕ) :
    g.visit choice f stack = ⟨(g.extensions choice f).map (stack ++ ·), stack⟩ :=
  Visit.run_eq _ _ _ _

variable [LawfulVertexSet S]

theorem extensions_eq_run {depth : ℕ} {f : Frame S} (h : VertexSet.size f.candidates ≤ depth) :
    g.extensions choice f = (Visit.run (Frame.steps g choice) depth f []).reported := by
  apply Frame.eq_of_size_le g choice (F := fun depth f =>
    (Visit.run (Frame.steps g choice) depth f []).reported) _ _ le_rfl h
  · intro f hnil bound
    cases bound with
    | zero => rfl
    | succ bound => simp [Visit.run, hnil]
  · intro m n f hsub
    rw [Visit.reported_run_succ, Visit.reported_run_succ]
    apply List.flatMap_congr
    intro step hstep
    cases step with
    | report v => rfl
    | descend v sub => simp only [Step.cliques, hsub v sub hstep]

theorem extensions_eq (f : Frame S) :
    g.extensions choice f = (f.steps g choice).flatMap (Step.cliques (g.extensions choice)) := by
  rw [g.extensions_eq_run choice (Nat.le_succ _), Visit.reported_run_succ]
  apply List.flatMap_congr
  intro step hstep
  cases step with
  | report v => rfl
  | descend v sub =>
    have hlt := (Frame.descends_of_mem_steps hstep).size_lt
    simp only [Step.cliques, g.extensions_eq_run choice hlt.le]

end Graph
end MaximalCliques

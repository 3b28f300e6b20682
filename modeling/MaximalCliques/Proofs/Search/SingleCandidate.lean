import MaximalCliques.Proofs.Search.Recursion

/-!
# A single candidate is no special case

A frame with one candidate reports it, unless an excluded vertex is its neighbour. The general steps
come to the same by three routes: without a pivot the candidate is branched on and has nothing below
it; as its own pivot it is not skipped, since no vertex is its own neighbour; and if local degrees
are counted, its own is zero, so it is reported during the count and no pivot is looked for. So a
visit that takes the general steps of every frame is the visit.
-/

namespace MaximalCliques

open VertexSet LawfulVertexSet

variable {S : Type} [VertexSet S]

/-- A visit that takes the general steps of every frame, however many candidates there are. -/
def Graph.visitGenerally (g : Graph S) (choice : Option PivotChoice) (frame : Frame S)
    (stack : List ℕ) : Visit :=
  Visit.run (Frame.generalSteps g choice) (VertexSet.size frame.candidates) frame stack

variable [LawfulVertexSet S]

namespace Frame

section Single

variable {g : Graph S} {f : Frame S} {v : ℕ} (hsingle : toList f.candidates = [v])

include hsingle

theorem isEmpty_below_of_single : isEmpty (f.below g v).candidates = true := by
  apply (VertexSet.isEmpty_iff _).mpr
  apply List.eq_nil_iff_forall_not_mem.mpr
  intro w hw
  obtain ⟨hcand, hadj⟩ := (Set.ext_iff.mp (candidateSet_below g f v) w).mp hw
  obtain rfl : w = v := by simpa [hsingle] using hcand
  exact g.adjacency.loopless.irrefl w hadj

theorem localDegree_of_single : f.localDegree g v = 0 := by
  apply (localDegree_eq_zero_iff g f v).mpr
  intro w hw
  obtain rfl : w = v := by simpa [hsingle] using hw
  exact g.adjacency.loopless.irrefl w

theorem branches_of_single {pivot : Option ℕ} (hpivot : ∀ p ∈ pivot, p = v) :
    branches g pivot [v] f = f.reports g [v] := by
  have hkept : skips g pivot v = false := by
    cases pivot with
    | none => rfl
    | some p =>
      obtain rfl := hpivot p rfl
      have hloop : ¬ contains (g.neighbours p) p = true := fun h =>
        g.adjacency.loopless.irrefl p ((contains_iff _ _).mp h)
      simpa [skips] using hloop
  calc branches g pivot [v] f
      = branches g none [v] f := by simp [branches_pivot, hkept]
    _ = f.reports g [v] := by
        simp [branch_eq, branches, isEmpty_below_of_single hsingle]

theorem localSteps_of_single (others : List ℕ) : f.localSteps g others = f.reports g [v] := by
  have hdegree : f.localDegree g v = 0 := localDegree_of_single hsingle
  simp [localSteps, withLocalDegrees, hsingle, hdegree, branches]

theorem generalSteps_of_single (choice : Option PivotChoice) :
    f.generalSteps g choice = f.reports g [v] := by
  match choice with
  | none =>
    simp only [generalSteps, hsingle]
    exact branches_of_single hsingle (by simp)
  | some .global =>
    simp only [generalSteps, hsingle]
    exact branches_of_single hsingle (by simp)
  | some .amongCandidates => exact localSteps_of_single hsingle _
  | some .amongAll => exact localSteps_of_single hsingle _

end Single

theorem steps_eq_generalSteps (g : Graph S) (choice : Option PivotChoice) :
    Frame.steps g choice = Frame.generalSteps g choice := by
  funext f
  by_cases hone : size f.candidates = 1
  · obtain ⟨v, hv⟩ : ∃ v, toList f.candidates = [v] := by
      simpa [size_eq_length, List.length_eq_one_iff] using hone
    simp [steps, hone, hv, generalSteps_of_single hv]
  · simp [steps, hone]

end Frame

/-- The general visit of a frame performs its general steps, and visits frames below in the same
way; on every frame and stack it reports the cliques that the visit reports, in the same order, and
leaves the same stack. -/
theorem Graph.visitGenerally_eq_visit (g : Graph S) (choice : Option PivotChoice) :
    (∀ (f : Frame S) (stack : List ℕ), g.visitGenerally choice f stack =
      (f.generalSteps g choice).foldl (Visit.perform (g.visitGenerally choice)) ⟨[], stack⟩) ∧
    ∀ (f : Frame S) (stack : List ℕ), g.visitGenerally choice f stack = g.visit choice f stack := by
  have heq : g.visitGenerally choice = g.visit choice := by
    funext f stack
    simp only [visitGenerally, visit, Frame.steps_eq_generalSteps]
  refine ⟨fun f stack => ?_, fun f stack => congrFun₂ heq f stack⟩
  calc g.visitGenerally choice f stack
      = ⟨(g.extensions choice f).map (stack ++ ·), stack⟩ := by rw [heq, g.visit_eq]
    _ = (f.steps g choice).foldl (Visit.perform (g.visit choice)) ⟨[], stack⟩ := by
        rw [Visit.foldl_perform (g.visit_eq choice), g.extensions_eq]
        rfl
    _ = (f.generalSteps g choice).foldl (Visit.perform (g.visitGenerally choice)) ⟨[], stack⟩ := by
        rw [heq, Frame.steps_eq_generalSteps]

/-- A visit of the diamond that comes to single candidates, and a single candidate with an excluded
neighbour. -/
theorem Graph.visitGenerally_eq_visit_diamond :
    diamond.visitGenerally (some .amongAll) ⟨ofList [0, 1, 2, 3], (empty : DenseSet)⟩ [7] =
        ⟨[[7, 1, 2, 0], [7, 1, 2, 3]], [7]⟩ ∧
      diamond.visitGenerally (some .amongAll) ⟨ofList [0], (ofList [1] : DenseSet)⟩ [2] =
        ⟨[], [2]⟩ := by
  obtain ⟨-, hsame⟩ := diamond.visitGenerally_eq_visit (some .amongAll)
  constructor
  · exact (hsame _ _).trans (by decide +kernel)
  · exact (hsame _ _).trans (by decide +kernel)

end MaximalCliques

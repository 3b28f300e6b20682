import MaximalCliques.Proofs.Graph.Extension
import MaximalCliques.Search.Frame

/-!
# What the steps of a frame amount to

Whatever the pivot choice, a frame reports some candidates that have no neighbour among the
candidates and branches on others, one after another. Together they meet every set of candidates
that the frame is to report: the neighbours of a pivot alone never make such a set, since the pivot
would extend it. `Frame.Plan` states this, and `exists_plan` finds a plan behind all steps.
-/

namespace MaximalCliques

open VertexSet LawfulVertexSet

variable {S : Type} [VertexSet S]

namespace Frame

def candidateSet (f : Frame S) : Set ℕ := {v | v ∈ toList f.candidates}

def vertexSet (f : Frame S) : Set ℕ := {v | v ∈ toList f.candidates ∨ v ∈ toList f.excluded}

@[simp] theorem mem_candidateSet (f : Frame S) (v : ℕ) :
    v ∈ f.candidateSet ↔ v ∈ toList f.candidates := Iff.rfl

@[simp] theorem mem_vertexSet (f : Frame S) (v : ℕ) :
    v ∈ f.vertexSet ↔ v ∈ toList f.candidates ∨ v ∈ toList f.excluded := Iff.rfl

def Separated (f : Frame S) : Prop := ∀ v ∈ toList f.candidates, v ∉ toList f.excluded

/-- An extension of whatever clique the vertices of the frame fit. -/
def IsExtension (g : Graph S) (f : Frame S) (C : Finset ℕ) : Prop :=
  MaximalCliques.IsExtension g.adjacency f.candidateSet f.vertexSet C

/-- Candidates to report and candidates to branch on, which together meet every extension. -/
structure Plan (g : Graph S) (f : Frame S) (isolated branched : List ℕ) : Prop where
  nodup : (isolated ++ branched).Nodup
  subset : ∀ v ∈ isolated ++ branched, v ∈ toList f.candidates
  alone : ∀ v ∈ isolated, ∀ w ∈ toList f.candidates, ¬ g.adjacency.Adj v w
  covers : ∀ C, f.IsExtension g C → ∃ v ∈ C, v ∈ isolated ++ branched

/-- The frame for the siblings after a candidate was branched on. -/
def pass (f : Frame S) (v : ℕ) : Frame S := ⟨(remove f.candidates v).set, (insert f.excluded v).set⟩

def below (g : Graph S) (f : Frame S) (v : ℕ) : Frame S :=
  restrict g ⟨(remove f.candidates v).set, f.excluded⟩ v

def skips (g : Graph S) (pivot : Option ℕ) (v : ℕ) : Bool :=
  pivot.any fun p => contains (g.neighbours v) p

/-- Skipping the neighbours of a pivot is branching on the other vertices without a pivot. -/
theorem branches_pivot (g : Graph S) (pivot : Option ℕ) (vs : List ℕ) (f : Frame S) :
    branches g pivot vs f = branches g none (vs.filter fun v => !skips g pivot v) f := by
  induction vs generalizing f with
  | nil => rfl
  | cons v vs ih =>
    have hstep : branches g pivot (v :: vs) f =
        if skips g pivot v then branches g pivot vs f
        else branch g ⟨(remove f.candidates v).set, f.excluded⟩ v ++
          branches g pivot vs (f.pass v) := rfl
    rw [hstep]
    split_ifs with h
    · rw [List.filter_cons_of_neg (by simp [h]), ih]
    · rw [List.filter_cons_of_pos (by simp [h]), ih]
      simp [branches, pass]

theorem branch_eq (g : Graph S) (f : Frame S) (v : ℕ) :
    branch g ⟨(remove f.candidates v).set, f.excluded⟩ v =
      if isEmpty (f.below g v).candidates then f.reports g [v] else [.descend v (f.below g v)] := by
  have hcloses : closes g ⟨(remove f.candidates v).set, f.excluded⟩ v = f.closes g v := rfl
  unfold branch below reports
  rw [hcloses]
  cases h : f.closes g v <;> simp [h]

theorem branches_cons (g : Graph S) (v : ℕ) (vs : List ℕ) (f : Frame S) :
    branches g none (v :: vs) f =
      branch g ⟨(remove f.candidates v).set, f.excluded⟩ v ++ branches g none vs (f.pass v) := by
  simp [branches, pass]

theorem map_fst_filter_withLocalDegrees (g : Graph S) (f : Frame S) (vs : List ℕ)
    (p : ℕ → Bool) :
    ((f.withLocalDegrees g vs).filter fun x => p x.2).map Prod.fst =
      vs.filter fun v => p (f.localDegree g v) := by
  simp [withLocalDegrees, List.filter_map, Function.comp_def]

variable [LawfulVertexSet S]

theorem candidateSet_pass (f : Frame S) (v : ℕ) :
    (f.pass v).candidateSet = f.candidateSet ∩ {v}ᶜ :=
  Set.ext fun _ => mem_remove _ _ _

theorem vertexSet_pass {f : Frame S} {v : ℕ} (hv : v ∈ toList f.candidates) :
    (f.pass v).vertexSet = f.vertexSet := by
  ext w
  simp only [mem_vertexSet, pass, mem_remove, mem_insert]
  by_cases h : w = v <;> simp [h, hv]

theorem candidateSet_below (g : Graph S) (f : Frame S) (v : ℕ) :
    (f.below g v).candidateSet = f.candidateSet ∩ g.adjacency.neighborSet v := by
  have hloop := g.adjacency.loopless.irrefl v
  ext w
  simp only [mem_candidateSet, below, restrict, mem_intersection, mem_remove, Set.mem_inter_iff,
    SimpleGraph.mem_neighborSet, Graph.adj_iff] at hloop ⊢
  grind

theorem vertexSet_below (g : Graph S) (f : Frame S) (v : ℕ) :
    (f.below g v).vertexSet = f.vertexSet ∩ g.adjacency.neighborSet v := by
  have hloop := g.adjacency.loopless.irrefl v
  ext w
  simp only [mem_vertexSet, below, restrict, mem_intersection, mem_remove, Set.mem_inter_iff,
    SimpleGraph.mem_neighborSet, Graph.adj_iff] at hloop ⊢
  grind

theorem Separated.pass {f : Frame S} (h : f.Separated) (v : ℕ) : (f.pass v).Separated := by
  intro w hw
  simp only [Frame.pass, mem_remove, mem_insert] at hw ⊢
  rintro (hwv | hw')
  · exact hw.2 hwv
  · exact h w hw.1 hw'

theorem closes_iff (g : Graph S) (f : Frame S) (v : ℕ) :
    f.closes g v = true ↔ ∀ w, g.adjacency.Adj v w → w ∉ toList f.excluded :=
  isDisjoint_iff _ _

theorem localDegree_eq_zero_iff (g : Graph S) (f : Frame S) (v : ℕ) :
    f.localDegree g v = 0 ↔ ∀ w ∈ toList f.candidates, ¬ g.adjacency.Adj v w := by
  unfold localDegree
  rw [intersectionSize_eq, size_eq_length, List.length_eq_zero_iff, List.eq_nil_iff_forall_not_mem]
  simp only [mem_intersection, not_and, Graph.adj_iff]
  exact ⟨fun h w hw hadj => h w hadj hw, fun h w hadj hw => h w hw hadj⟩

/-! ## Plans of the pivot choices -/

/-- A pivot that belongs to the frame misses some member of every extension. -/
theorem exists_not_skipped {g : Graph S} {f : Frame S} {C : Finset ℕ}
    (hC : f.IsExtension g C) (pivot : Option ℕ) (hp : ∀ p ∈ pivot, p ∈ f.vertexSet) :
    ∃ v ∈ C, (!skips g pivot v) = true := by
  cases pivot with
  | none =>
    obtain ⟨v, hv⟩ := hC.nonempty
    exact ⟨v, hv, rfl⟩
  | some p =>
    obtain ⟨v, hv, hadj⟩ := hC.maximal p (hp p rfl)
    have hfar : ¬ contains (g.neighbours v) p = true := by
      rw [contains_iff, ← Graph.adj_iff]
      exact fun h => hadj h.symm
    exact ⟨v, hv, by simpa [skips] using hfar⟩

theorem plan_single {g : Graph S} {f : Frame S} (h : size f.candidates = 1) :
    f.Plan g (toList f.candidates) [] := by
  rw [size_eq_length, List.length_eq_one_iff] at h
  obtain ⟨u, hu⟩ := h
  constructor
  · simp [hu]
  · simp
  · intro v hv w hw
    rw [hu, List.mem_singleton] at hv hw
    subst hv hw
    exact g.adjacency.loopless.irrefl w
  · intro C hC
    obtain ⟨v, hv⟩ := hC.nonempty
    exact ⟨v, hv, by simpa using (mem_candidateSet f v).mp (hC.subset v hv)⟩

theorem plan_pivot {g : Graph S} {f : Frame S} (pivot : Option ℕ)
    (hp : ∀ p ∈ pivot, p ∈ f.vertexSet) :
    f.Plan g [] ((toList f.candidates).filter fun v => !skips g pivot v) := by
  apply Plan.mk ((nodup_toList _).filter _) (fun v hv => List.mem_of_mem_filter hv) (by simp)
  intro C hC
  obtain ⟨v, hv, hskip⟩ := exists_not_skipped hC pivot hp
  exact ⟨v, hv, List.mem_filter.mpr ⟨hC.subset v hv, hskip⟩⟩

theorem plan_local {g : Graph S} {f : Frame S} (pivot : Option ℕ)
    (hp : ∀ p ∈ pivot, p ∈ f.vertexSet) :
    f.Plan g ((toList f.candidates).filter fun v => f.localDegree g v == 0)
      (((toList f.candidates).filter fun v => f.localDegree g v != 0).filter fun v =>
        !skips g pivot v) := by
  have hisolated : ∀ v, v ∈ (toList f.candidates).filter (fun v => f.localDegree g v == 0) ↔
      v ∈ toList f.candidates ∧ f.localDegree g v = 0 := by
    intro v
    simp
  have hbranched : ∀ v, v ∈ ((toList f.candidates).filter fun v => f.localDegree g v != 0).filter
      (fun v => !skips g pivot v) ↔
      (v ∈ toList f.candidates ∧ f.localDegree g v ≠ 0) ∧ (!skips g pivot v) = true := by
    intro v
    rw [List.mem_filter, List.mem_filter, bne_iff_ne]
  constructor
  · rw [List.nodup_append']
    refine ⟨(nodup_toList _).filter _, ((nodup_toList _).filter _).filter _, fun v hv hv' => ?_⟩
    exact ((hbranched v).mp hv').1.2 ((hisolated v).mp hv).2
  · intro v hv
    rcases List.mem_append.mp hv with hv | hv
    · exact ((hisolated v).mp hv).1
    · exact ((hbranched v).mp hv).1.1
  · intro v hv
    exact (localDegree_eq_zero_iff g f v).mp ((hisolated v).mp hv).2
  · intro C hC
    obtain ⟨v, hv, hskip⟩ := exists_not_skipped hC pivot hp
    have hcand : v ∈ toList f.candidates := hC.subset v hv
    apply Exists.intro v
    apply And.intro hv
    rw [List.mem_append, hisolated, hbranched]
    by_cases hdegree : f.localDegree g v = 0
    · exact Or.inl ⟨hcand, hdegree⟩
    · exact Or.inr ⟨⟨hcand, hdegree⟩, hskip⟩

theorem exists_plan_local (g : Graph S) (f : Frame S) (others : List ℕ)
    (hothers : ∀ v ∈ others, v ∈ f.vertexSet) :
    ∃ isolated branched,
      f.localSteps g others = f.reports g isolated ++ branches g none branched f ∧
        f.Plan g isolated branched := by
  let linked := (f.withLocalDegrees g (toList f.candidates)).filter fun x => x.2 != 0
  let pivot := ((linked ++ f.withLocalDegrees g others).maxOn? Prod.snd).map Prod.fst
  have hp : ∀ p ∈ pivot, p ∈ f.vertexSet := by
    intro p hp
    obtain ⟨x, hx, rfl⟩ := Option.map_eq_some_iff.mp hp
    have hfst : ∀ {vs : List ℕ}, x ∈ f.withLocalDegrees g vs → x.1 ∈ vs := by
      intro vs hx
      obtain ⟨v, hv, rfl⟩ := List.mem_map.mp hx
      exact hv
    rcases List.mem_append.mp (List.maxOn?_mem hx) with hx | hx
    · exact Or.inl (hfst (List.mem_of_mem_filter hx))
    · exact hothers x.1 (hfst hx)
  refine ⟨_, _, ?_, plan_local pivot hp⟩
  rw [← branches_pivot, ← map_fst_filter_withLocalDegrees g f _ (· == 0),
    ← map_fst_filter_withLocalDegrees g f _ (· != 0)]
  rfl

theorem exists_plan (g : Graph S) (choice : Option PivotChoice) (f : Frame S) :
    ∃ isolated branched, f.steps g choice = f.reports g isolated ++ branches g none branched f ∧
      f.Plan g isolated branched := by
  by_cases hone : size f.candidates = 1
  · refine ⟨_, _, ?_, plan_single hone⟩
    simp [steps, hone, branches]
  · simp only [steps, if_neg hone]
    rcases choice with _ | choice
    · refine ⟨_, _, ?_, plan_pivot none (by simp)⟩
      rw [← branches_pivot]
      rfl
    cases choice with
    | global =>
      refine ⟨_, _, ?_, plan_pivot ((toList f.candidates).reverse.maxOn? g.degree) ?_⟩
      · rw [← branches_pivot]
        rfl
      · intro p hp
        exact Or.inl (List.mem_reverse.mp (List.maxOn?_mem hp))
    | amongCandidates => exact exists_plan_local g f [] (by simp)
    | amongAll => exact exists_plan_local g f (toList f.excluded) fun v hv => Or.inr hv

end Frame
end MaximalCliques

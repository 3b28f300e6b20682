import MaximalCliques.Proofs.Benchmark.Recording
import MaximalCliques.Proofs.Search.Algorithms

/-!
# Comparing algorithms on a recording

A comparison leaves the files as they are, whether it fails or not. It does not fail if there are
workers for every algorithm: cliques that are wrong are only warned of.
-/

namespace MaximalCliques
namespace Benchmark
namespace Recording

section Programs

variable {α β : Type} {x : Program α} {f : α → Program β} {P : α → Prop} {Q : β → Prop}

/-- The files are the same afterwards, whether the program fails or not. -/
def KeepsStore (x : Program α) : Prop := ∀ r, (x.run r).2.store = r.store

/-- The program does not fail, and gives a value with a property. -/
def Returns (x : Program α) (P : α → Prop) : Prop := ∀ r, ∃ a r', x.run r = (.ok a, r') ∧ P a

theorem keepsStore_pure (a : α) : KeepsStore (pure a : Program α) := fun _ => rfl

theorem KeepsStore.bind (hx : KeepsStore x) (hf : ∀ a, KeepsStore (f a)) :
    KeepsStore (x >>= f) := by
  intro r
  have hstore := hx r
  rw [run_bind]
  rcases hrun : x.run r with ⟨e | a, r₁⟩
  · rw [hrun] at hstore
    exact hstore
  · rw [hrun] at hstore
    exact (hf a r₁).trans hstore

theorem KeepsStore.mapM (hf : ∀ a, KeepsStore (f a)) (as : List α) : KeepsStore (as.mapM f) := by
  induction as with
  | nil => exact keepsStore_pure []
  | cons a as ih =>
    rw [List.mapM_cons]
    exact (hf a).bind fun b => ih.bind fun bs => keepsStore_pure _

theorem KeepsStore.forM {f : α → Program Unit} (hf : ∀ a, KeepsStore (f a)) (as : List α) :
    KeepsStore (as.forM f) := by
  induction as with
  | nil => exact keepsStore_pure ()
  | cons a as ih => exact (hf a).bind fun _ => ih

theorem returns_pure {a : α} (ha : P a) : Returns (pure a) P := fun r => ⟨a, r, rfl, ha⟩

theorem Returns.bind (hx : Returns x P) (hf : ∀ a, P a → Returns (f a) Q) :
    Returns (x >>= f) Q := by
  intro r
  obtain ⟨a, r₁, hrun, ha⟩ := hx r
  obtain ⟨b, r₂, hrun', hb⟩ := hf a ha r₁
  exact ⟨b, r₂, (run_bind_of_ok f hrun).trans hrun', hb⟩

theorem Returns.mapM {as : List α} (hf : ∀ a ∈ as, Returns (f a) Q) :
    Returns (as.mapM f) fun bs => ∀ b ∈ bs, Q b := by
  induction as with
  | nil => exact returns_pure (by simp)
  | cons a as ih =>
    rw [List.mapM_cons]
    obtain ⟨ha, has⟩ := List.forall_mem_cons.mp hf
    apply ha.bind
    intro b hb
    apply (ih has).bind
    intro bs hbs
    exact returns_pure (List.forall_mem_cons.mpr ⟨hb, hbs⟩)

theorem Returns.forM {f : α → Program Unit} (hf : ∀ a, Returns (f a) fun _ => True)
    (as : List α) : Returns (as.forM f) fun _ => True := by
  induction as with
  | nil => exact returns_pure trivial
  | cons a as ih => exact (hf a).bind fun _ _ => ih

theorem keepsStore_print (row : Row) : KeepsStore (host.print row) := fun _ => rfl

theorem keepsStore_warn (message : String) : KeepsStore (host.warn message) := fun _ => rfl

theorem returns_print (row : Row) : Returns (host.print row) fun _ => True :=
  fun _ => ⟨(), _, rfl, trivial⟩

theorem returns_warn (message : String) : Returns (host.warn message) fun _ => True :=
  fun _ => ⟨(), _, rfl, trivial⟩

end Programs

variable {S : Type} [VertexSet S] (schedule : Pool.Schedule) (g : Graph S)

/-! ## Files stay as they are -/

theorem keepsStore_timed {R : Type} [Reporter R] (reporter : R) (a : Algorithm) :
    KeepsStore (timed host schedule g reporter a) := by
  intro r
  unfold timed Algorithm.explore
  cases a.cliques schedule g <;> rfl

theorem keepsStore_crossCheck (a : Algorithm) (cliques : List Clique)
    (expected : Option (Algorithm × List Clique)) :
    KeepsStore (crossCheck host g a cliques expected) := by
  unfold crossCheck
  split
  · split_ifs
    · exact keepsStore_pure ()
    · exact keepsStore_warn _
  · split
    · exact keepsStore_warn _
    · exact keepsStore_pure ()

theorem keepsStore_firstRound (expected : Option (Algorithm × List Clique))
    (algorithms : List Algorithm) :
    KeepsStore (firstRound host schedule g expected algorithms) := by
  induction algorithms generalizing expected with
  | nil => exact keepsStore_pure []
  | cons a as ih =>
    apply (keepsStore_timed schedule g _ a).bind
    intro found
    apply (keepsStore_crossCheck g a _ expected).bind
    intro _
    exact (ih _).bind fun _ => keepsStore_pure _

theorem keepsStore_laterRounds (rounds : ℕ) (times : List (Algorithm × SampleStatistics Float)) :
    KeepsStore (laterRounds host schedule g rounds times) := by
  induction rounds generalizing times with
  | zero => exact keepsStore_pure times
  | succ rounds ih =>
    apply KeepsStore.bind
    · apply KeepsStore.mapM
      intro t
      exact (keepsStore_timed schedule g _ t.1).bind fun _ => keepsStore_pure _
    · exact ih

theorem keepsStore_compare (o : Options) (size : ℕ) :
    KeepsStore (compare host schedule o size g) := by
  apply (keepsStore_firstRound schedule g none _).bind
  intro times
  apply (keepsStore_laterRounds schedule g _ times).bind
  intro times'
  exact (KeepsStore.forM keepsStore_print _).bind fun _ => keepsStore_pure _

/-! ## Algorithms that can start are compared without failure -/

theorem returns_crossCheck (a : Algorithm) (cliques : List Clique)
    (expected : Option (Algorithm × List Clique)) :
    Returns (crossCheck host g a cliques expected) fun _ => True := by
  unfold crossCheck
  split
  · split_ifs
    · exact returns_pure trivial
    · exact returns_warn _
  · split
    · exact returns_warn _
    · exact returns_pure trivial

variable [LawfulVertexSet S]

theorem returns_timed {R : Type} [Reporter R] (reporter : R) {a : Algorithm}
    (ha : a.CanStart S) : Returns (timed host schedule g reporter a) fun _ => True := by
  intro r
  obtain ⟨cs, hcs, -⟩ := Algorithm.exists_cliques_eq_ok g ha schedule
  unfold timed Algorithm.explore
  rw [hcs]
  exact ⟨_, r, rfl, trivial⟩

theorem returns_firstRound {algorithms : List Algorithm} (hstart : ∀ a ∈ algorithms, a.CanStart S)
    (expected : Option (Algorithm × List Clique)) :
    Returns (firstRound host schedule g expected algorithms) fun times =>
      ∀ t ∈ times, t.1.CanStart S := by
  induction algorithms generalizing expected with
  | nil => exact returns_pure (by simp)
  | cons a as ih =>
    obtain ⟨ha, has⟩ := List.forall_mem_cons.mp hstart
    apply (returns_timed schedule g _ ha).bind
    intro found _
    apply (returns_crossCheck g a _ expected).bind
    intro _ _
    apply (ih has _).bind
    intro times htimes
    exact returns_pure (List.forall_mem_cons.mpr ⟨ha, htimes⟩)

theorem returns_laterRounds (rounds : ℕ) {times : List (Algorithm × SampleStatistics Float)}
    (htimes : ∀ t ∈ times, t.1.CanStart S) :
    Returns (laterRounds host schedule g rounds times) fun _ => True := by
  induction rounds generalizing times with
  | zero => exact returns_pure trivial
  | succ rounds ih =>
    refine (Returns.mapM fun t ht => ?_).bind fun times' htimes' => ih htimes'
    exact (returns_timed schedule g _ (htimes t ht)).bind fun _ _ => returns_pure (htimes t ht)

theorem returns_compare {o : Options} (hstart : ∀ a ∈ o.compared, a.CanStart S) (size : ℕ) :
    Returns (compare host schedule o size g) fun _ => True := by
  apply (returns_firstRound schedule g hstart none).bind
  intro times htimes
  apply (returns_laterRounds schedule g _ htimes).bind
  intro times' _
  exact (Returns.forM returns_print _).bind fun _ _ => returns_pure trivial

end Recording
end Benchmark
end MaximalCliques

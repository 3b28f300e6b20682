import MaximalCliques.Algorithm.Name
import MaximalCliques.Proofs.Numeral

/-!
# What names an algorithm

A grammar of names, in literal texts: a kind, a hyphen and the abbreviation of a pivot choice, and for
parallel algorithms an at sign and the numeral of the threads. Main statement: the reader takes a text
exactly if the grammar does, and for the same algorithm. Every algorithm that can be asked for has
its own name, and the other texts for it differ from that in how they write the numeral.
-/

namespace MaximalCliques
namespace Algorithm

open Numeral

variable {text kind rest before after numeral : List Char} {mark : Char} {a b : Algorithm}

/-- A pool has a worker, and the number of its workers fits into a count. -/
def IsNameable : Algorithm → Prop
  | parallel _ threads => 0 < threads ∧ threads < 2 ^ 64
  | _ => True

inductive Abbreviates : List Char → PivotChoice → Prop
  | global : Abbreviates "gg".toList .global
  | amongCandidates : Abbreviates "gp".toList .amongCandidates
  | amongAll : Abbreviates "gpx".toList .amongAll

inductive Names : List Char → Algorithm → Prop
  | naive : Names "naive".toList .naive
  | pivot {short : List Char} {choice : PivotChoice} (hshort : Abbreviates short choice) :
      Names ("pivot-".toList ++ short) (.pivot choice)
  | degeneracy {short : List Char} {choice : PivotChoice} (hshort : Abbreviates short choice) :
      Names ("degen-".toList ++ short) (.degeneracy choice)
  | parallel {short numeral : List Char} {choice : PivotChoice} {threads : ℕ}
      (hshort : Abbreviates short choice) (hnumeral : Denotes numeral threads)
      (hpos : 0 < threads) (hlt : threads < 2 ^ 64) :
      Names ("parallel-".toList ++ short ++ '@' :: numeral) (.parallel choice threads)

theorem abbreviates_iff {short : List Char} {choice : PivotChoice} :
    Abbreviates short choice ↔ short = choice.abbreviation := by
  constructor
  · rintro (_ | _ | _) <;> rfl
  · rintro rfl
    cases choice
    · exact .global
    · exact .amongCandidates
    · exact .amongAll

/-! ## Splitting at a mark -/

theorem splitFirst?_append (h : mark ∉ before) :
    splitFirst? mark (before ++ mark :: after) = some (before, after) := by
  induction before with
  | nil => simp [splitFirst?]
  | cons c cs ih =>
    obtain ⟨hc, hcs⟩ : mark ≠ c ∧ mark ∉ cs := by simpa using h
    rw [List.cons_append, splitFirst?, if_neg hc.symm, ih hcs]
    rfl

theorem eq_append_of_splitFirst? (h : splitFirst? mark text = some (before, after)) :
    text = before ++ mark :: after := by
  induction text generalizing before with
  | nil => cases h
  | cons c cs ih =>
    rw [splitFirst?] at h
    split_ifs at h with hc
    · cases h
      rw [hc, List.nil_append]
    · obtain ⟨⟨front, back⟩, hsplit, heq⟩ := Option.map_eq_some_iff.mp h
      cases heq
      rw [ih hsplit, List.cons_append]

/-! ## Reading a name -/

theorem parallel?_eq_some {choice : PivotChoice} {threads : ℕ} (hnumeral : Denotes numeral threads)
    (hpos : 0 < threads) (hlt : threads < countBound) :
    parallel? (choice.abbreviation ++ '@' :: numeral) = some (parallel choice threads) := by
  have hmark : '@' ∉ choice.abbreviation := by cases choice <;> decide
  have hread : read countBound numeral = .ok threads :=
    (read_eq_ok_iff (by decide)).mpr ⟨hnumeral, hlt⟩
  simp only [parallel?, splitFirst?_append hmark, PivotChoice.ofAbbreviation?_abbreviation,
    Option.bind_eq_bind, Option.bind_some, hread, if_pos hpos]

theorem names_of_parallel? (h : parallel? text = some a) : Names ("parallel-".toList ++ text) a := by
  unfold parallel? at h
  simp only [Option.bind_eq_bind, Option.bind_eq_some_iff] at h
  obtain ⟨⟨front, numeral⟩, hsplit, choice, hchoice, h⟩ := h
  have hshort := abbreviates_iff.mpr ((PivotChoice.ofAbbreviation?_eq_some_iff _ _).mp hchoice)
  rw [eq_append_of_splitFirst? hsplit, ← List.append_assoc]
  split at h
  · rename_i threads hread
    split_ifs at h with hpos
    cases h
    obtain ⟨hnumeral, hlt⟩ := (read_eq_ok_iff (by decide)).mp hread
    exact .parallel hshort hnumeral hpos hlt
  · cases h

theorem names_of_ofName? (h : ofName? text = some a) : Names text a := by
  unfold ofName? at h
  split_ifs at h with hnaive
  · cases h
    exact hnaive ▸ .naive
  · split at h
    · cases h
    · rename_i kind rest hsplit
      rw [eq_append_of_splitFirst? hsplit]
      split_ifs at h with hpivot hdegeneracy hparallel
      · obtain ⟨choice, hchoice, rfl⟩ := Option.map_eq_some_iff.mp h
        rw [PivotChoice.ofAbbreviation?_eq_some_iff, ← abbreviates_iff] at hchoice
        rw [hpivot]
        exact .pivot hchoice
      · obtain ⟨choice, hchoice, rfl⟩ := Option.map_eq_some_iff.mp h
        rw [PivotChoice.ofAbbreviation?_eq_some_iff, ← abbreviates_iff] at hchoice
        rw [hdegeneracy]
        exact .degeneracy hchoice
      · rw [hparallel]
        exact names_of_parallel? h

theorem ofName?_of_kind (hkind : '-' ∉ kind) :
    ofName? (kind ++ '-' :: rest) =
      if kind = pivotKind then (PivotChoice.ofAbbreviation? rest).map pivot
      else if kind = degeneracyKind then (PivotChoice.ofAbbreviation? rest).map degeneracy
      else if kind = parallelKind then parallel? rest
      else none := by
  have hne : kind ++ '-' :: rest ≠ naiveName := by
    intro h
    have hmem : '-' ∈ naiveName := h ▸ by simp
    exact absurd hmem (by decide)
  rw [ofName?, if_neg hne, splitFirst?_append hkind]

theorem ofName?_eq_some_iff : ofName? text = some a ↔ Names text a := by
  constructor
  · exact names_of_ofName?
  · intro h
    cases h with
    | naive => rfl
    | @pivot _ choice hshort =>
      obtain rfl := abbreviates_iff.mp hshort
      change ofName? (pivotKind ++ '-' :: choice.abbreviation) = _
      rw [ofName?_of_kind (by decide), if_pos rfl, PivotChoice.ofAbbreviation?_abbreviation]
      rfl
    | @degeneracy _ choice hshort =>
      obtain rfl := abbreviates_iff.mp hshort
      change ofName? (degeneracyKind ++ '-' :: choice.abbreviation) = _
      rw [ofName?_of_kind (by decide), if_neg (by decide), if_pos rfl,
        PivotChoice.ofAbbreviation?_abbreviation]
      rfl
    | @parallel _ numeral choice _ hshort hnumeral hpos hlt =>
      obtain rfl := abbreviates_iff.mp hshort
      rw [List.append_assoc]
      change ofName? (parallelKind ++ '-' :: (choice.abbreviation ++ '@' :: numeral)) = _
      rw [ofName?_of_kind (by decide), if_neg (by decide), if_neg (by decide), if_pos rfl]
      exact parallel?_eq_some hnumeral hpos hlt

theorem ofName_eq_ok_iff : ofName text = .ok a ↔ Names text a := by
  rw [← ofName?_eq_some_iff, ofName]
  cases ofName? text <;> simp

theorem ofName_of_forall_not_names (h : ∀ a, ¬ Names text a) :
    ofName text = .error (.unknownAlgorithm text) := by
  rw [ofName]
  cases hread : ofName? text with
  | none => rfl
  | some a => exact absurd (names_of_ofName? hread) (h a)

theorem Names.unique (ha : Names text a) (hb : Names text b) : a = b := by
  rw [← ofName?_eq_some_iff] at ha hb
  exact Option.some.inj (ha.symm.trans hb)

/-! ## The name of an algorithm -/

theorem names_name (h : a.IsNameable) : Names a.name a := by
  cases a with
  | naive => exact .naive
  | pivot choice => exact .pivot (abbreviates_iff.mpr rfl)
  | degeneracy choice => exact .degeneracy (abbreviates_iff.mpr rfl)
  | parallel choice threads =>
    exact .parallel (abbreviates_iff.mpr rfl) (denotes_write threads) h.1 h.2

/-- The text is the name of the algorithm, but that the number of threads may have a sign and zeros
in front. -/
inductive Respells : List Char → Algorithm → Prop
  | same (a : Algorithm) : Respells a.name a
  | threads {front sign : List Char} (choice : PivotChoice) (threads zeros : ℕ)
      (hname : (parallel choice threads).name = front ++ '@' :: write threads)
      (hsign : sign = [] ∨ sign = ['+']) :
      Respells (front ++ '@' :: (sign ++ (List.replicate zeros '0' ++ write threads)))
        (.parallel choice threads)

theorem Names.respells (h : Names text a) : Respells text a := by
  cases h with
  | naive => exact .same .naive
  | pivot hshort =>
    obtain rfl := abbreviates_iff.mp hshort
    exact .same (.pivot _)
  | degeneracy hshort =>
    obtain rfl := abbreviates_iff.mp hshort
    exact .same (.degeneracy _)
  | parallel hshort hnumeral hpos hlt =>
    obtain rfl := abbreviates_iff.mp hshort
    obtain ⟨sign, zeros, hsign, rfl⟩ := hnumeral.exists_spelling
    exact .threads _ _ zeros rfl hsign

theorem Names.isNameable (h : Names text a) : a.IsNameable := by
  cases h with
  | parallel hshort hnumeral hpos hlt => exact ⟨hpos, hlt⟩
  | _ => trivial

/-- Zero threads are written like any other number, but no name asks for them. -/
theorem ofName_name_parallel_zero (choice : PivotChoice) :
    ofName (parallel choice 0).name = .error (.unknownAlgorithm (parallel choice 0).name) := by
  cases choice <;> rfl

/-- An algorithm whose threads can be had is read back from its name, which no other one shares. What
is read is exactly what the grammar has for the algorithm; all that it adds to the names are a plus
sign and zeros in front of the number of threads. Any other text is reported as unknown, and so is
the name of an algorithm without threads. -/
theorem name_exact (a : Algorithm) (text : List Char) :
    (a.IsNameable → ofName a.name = .ok a) ∧
    (∀ b, a.IsNameable → b.IsNameable → a.name = b.name → a = b) ∧
    (ofName text = .ok a ↔ Names text a) ∧
    (Names text a → a.IsNameable ∧ Respells text a) ∧
    ((∀ b, ¬ Names text b) → ofName text = .error (.unknownAlgorithm text)) ∧
    ∀ choice, ofName (parallel choice 0).name = .error (.unknownAlgorithm (parallel choice 0).name) := by
  refine ⟨fun h => ofName_eq_ok_iff.mpr (names_name h), fun b ha hb heq => ?_, ofName_eq_ok_iff,
    fun h => ⟨h.isNameable, h.respells⟩, ofName_of_forall_not_names, ofName_name_parallel_zero⟩
  exact (names_name ha).unique (heq ▸ names_name hb)

/-- A name with a pivot, a kind without one, sixteen threads with a sign and a zero in front of them,
and more threads than can be counted. -/
theorem name_exact_threads :
    (parallel .amongAll 16).IsNameable ∧
      ofName (parallel .amongAll 16).name = .ok (parallel .amongAll 16) ∧
      Names "parallel-gpx@+016".toList (parallel .amongAll 16) ∧
      Respells "parallel-gpx@+016".toList (parallel .amongAll 16) ∧
      Names "pivot-gp".toList (pivot .amongCandidates) ∧
      ofName "pivot-gp".toList = .ok (pivot .amongCandidates) ∧
      (pivot .amongCandidates).name = "pivot-gp".toList ∧
      ofName "pivot-".toList = .error (.unknownAlgorithm "pivot-".toList) ∧
      ofName "parallel-gpx@18446744073709551616".toList =
        .error (.unknownAlgorithm "parallel-gpx@18446744073709551616".toList) := by
  have hnameable : (parallel .amongAll 16).IsNameable := ⟨by decide, by decide⟩
  obtain ⟨hname, -, hnames, hrespells, -⟩ :=
    name_exact (parallel .amongAll 16) "parallel-gpx@+016".toList
  obtain ⟨-, -, hpivot, -⟩ := name_exact (pivot .amongCandidates) "pivot-gp".toList
  have htext := hnames.mp (by rfl)
  have hshort : Names "pivot-gp".toList (pivot .amongCandidates) := .pivot .amongCandidates
  have hunknown : ∀ text, ofName? text = none → ∀ b, ¬ Names text b := by
    intro text hnone b h
    rw [← ofName?_eq_some_iff, hnone] at h
    cases h
  exact ⟨hnameable, hname hnameable, htext, (hrespells htext).2, hshort, hpivot.mpr hshort, rfl,
    (name_exact .naive "pivot-".toList).2.2.2.2.1 (hunknown _ rfl),
    (name_exact .naive "parallel-gpx@18446744073709551616".toList).2.2.2.2.1 (hunknown _ rfl)⟩

end Algorithm
end MaximalCliques

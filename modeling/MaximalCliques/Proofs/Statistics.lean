import Mathlib.Algebra.Order.BigOperators.Group.List
import Mathlib.Algebra.Order.Field.Basic
import Mathlib.Analysis.Real.Sqrt
import Mathlib.Data.List.Induction
import Mathlib.Order.Bounds.Basic
import Mathlib.Tactic.FieldSimp
import Mathlib.Tactic.Linarith
import Mathlib.Tactic.Ring
import MaximalCliques.Statistics

/-!
# What the statistics of samples tell

Over an ordered field, where nothing is rounded, and with a count that is exact, the statistics of a
sequence tell its extremes, its average and its sample variance, which is the sum of the squared
distances from the average divided by one less than the number of samples. The average lies between
the extremes and the variance between zero and the squared distance of the extremes, so the bounds
that guard against rounding never take effect.
-/

namespace MaximalCliques
namespace SampleStatistics

variable {α : Type} [Field α]

/-! ## Sums over samples -/

def average (xs : List α) : α := xs.sum / xs.length

def squaredDistance (c : α) (xs : List α) : α := (xs.map fun x => (x - c) ^ 2).sum

/-- The sample variance, by two passes over the samples. -/
def sampleVariance (xs : List α) : α := squaredDistance (average xs) xs / (xs.length - 1)

theorem squaredDistance_eq (c : α) (xs : List α) :
    squaredDistance c xs = (xs.map (· ^ 2)).sum - 2 * c * xs.sum + xs.length * c ^ 2 := by
  induction xs with
  | nil => simp [squaredDistance]
  | cons x xs ih =>
    simp only [squaredDistance, List.map_cons, List.sum_cons, List.length_cons, Nat.cast_succ] at ih ⊢
    rw [ih]
    ring

variable [LinearOrder α] {s : SampleStatistics α} {xs : List α} {a b x : α}

/-! ## Collecting samples -/

/-- The statistics tell what they should of these samples. -/
structure Summarises (s : SampleStatistics α) (xs : List α) : Prop where
  samples : s.samples = xs.length
  sum : s.sum = xs.sum
  sumOfSquares : s.sumOfSquares = (xs.map (· ^ 2)).sum
  least : xs ≠ [] → IsLeast {x | x ∈ xs} s.least
  most : xs ≠ [] → IsGreatest {x | x ∈ xs} s.most

theorem summarises_empty : Summarises (empty : SampleStatistics α) [] where
  samples := rfl
  sum := rfl
  sumOfSquares := rfl
  least h := absurd rfl h
  most h := absurd rfl h

theorem Summarises.isEmpty_iff (h : Summarises s xs) : s.isEmpty = true ↔ xs = [] := by
  simp [isEmpty, h.samples]

theorem Summarises.least_le_most (h : Summarises s xs) (hne : xs ≠ []) : s.least ≤ s.most :=
  (h.most hne).2 (h.least hne).1

theorem Summarises.bounds (h : Summarises s xs) (hne : xs ≠ []) :
    ∀ x ∈ xs, s.least ≤ x ∧ x ≤ s.most :=
  fun _ hx => ⟨(h.least hne).2 hx, (h.most hne).2 hx⟩

theorem Summarises.quotient_eq_average (h : Summarises s xs) :
    s.sum / (s.samples : α) = average xs := by
  rw [h.sum, h.samples, average]

theorem extremes_put_of_isEmpty (h : s.isEmpty = true) :
    (s.put x).least = x ∧ (s.put x).most = x := by
  simp [put, h]

/-- A sample below the least one need not be compared with the greatest. -/
theorem extremes_put (h : ¬ s.isEmpty = true) (horder : s.least ≤ s.most) :
    (s.put x).least = min x s.least ∧ (s.put x).most = max x s.most := by
  simp only [put, if_neg h]
  rcases lt_or_ge x s.least with hlow | hlow
  · have hmost : x ≤ s.most := hlow.le.trans horder
    simp [hlow, hlow.le, hmost]
  · rcases lt_or_ge s.most x with hhigh | hhigh
    · simp [hlow.not_gt, hlow, hhigh, hhigh.le]
    · simp [hlow.not_gt, hlow, hhigh.not_gt, hhigh]

theorem Summarises.put (h : Summarises s xs) (x : α) : Summarises (s.put x) (xs ++ [x]) := by
  have hmembers : {y | y ∈ xs ++ [x]} = insert x {y | y ∈ xs} := by
    ext y
    simp [or_comm]
  have hextremes : IsLeast {y | y ∈ xs ++ [x]} (s.put x).least ∧
      IsGreatest {y | y ∈ xs ++ [x]} (s.put x).most := by
    rcases eq_or_ne xs [] with hnil | hne
    · obtain ⟨hleast, hmost⟩ := extremes_put_of_isEmpty (x := x) (h.isEmpty_iff.mpr hnil)
      simp [hnil, hleast, hmost]
    · obtain ⟨hleast, hmost⟩ :=
        extremes_put (x := x) (h.isEmpty_iff.not.mpr hne) (h.least_le_most hne)
      rw [hmembers, hleast, hmost]
      exact ⟨(h.least hne).insert x, (h.most hne).insert x⟩
  exact
    { samples := by simp [SampleStatistics.put, h.samples]
      sum := by simp [SampleStatistics.put, h.sum]
      sumOfSquares := by simp [SampleStatistics.put, h.sumOfSquares, sq]
      least := fun _ => hextremes.1
      most := fun _ => hextremes.2 }

theorem summarises_ofList (xs : List α) : Summarises (ofList xs) xs := by
  induction xs using List.reverseRecOn with
  | nil => exact summarises_empty
  | append_singleton xs x ih => simpa [ofList] using ih.put x

/-! ## Samples between bounds -/

variable [IsStrictOrderedRing α]

theorem length_cast_pos (h : xs ≠ []) : (0 : α) < xs.length := by
  exact_mod_cast List.length_pos_iff.mpr h

theorem squaredDistance_nonneg (c : α) (xs : List α) : 0 ≤ squaredDistance c xs := by
  apply List.sum_nonneg
  simp only [List.forall_mem_map]
  exact fun x _ => sq_nonneg (x - c)

theorem squaredDistance_average (h : xs ≠ []) :
    squaredDistance (average xs) xs = (xs.map (· ^ 2)).sum - xs.sum * xs.sum / xs.length := by
  have hlength := (length_cast_pos h).ne'
  rw [squaredDistance_eq, average]
  field_simp
  ring

theorem squaredDistance_average_le (h : xs ≠ []) (c : α) :
    squaredDistance (average xs) xs ≤ squaredDistance c xs := by
  have hlength := length_cast_pos h
  have hsum : xs.sum = xs.length * average xs := by
    rw [average, mul_div_cancel₀ _ hlength.ne']
  have hdifference : squaredDistance c xs - squaredDistance (average xs) xs =
      xs.length * (average xs - c) ^ 2 := by
    rw [squaredDistance_eq, squaredDistance_eq, hsum]
    ring
  have hnonneg : 0 ≤ (xs.length : α) * (average xs - c) ^ 2 := by positivity
  linarith

theorem average_mem_Icc (h : xs ≠ []) (hxs : ∀ x ∈ xs, a ≤ x ∧ x ≤ b) :
    a ≤ average xs ∧ average xs ≤ b := by
  have hlength := length_cast_pos (α := α) h
  have hlow := xs.card_nsmul_le_sum a fun x hx => (hxs x hx).1
  have hhigh := xs.sum_le_card_nsmul b fun x hx => (hxs x hx).2
  rw [nsmul_eq_mul] at hlow hhigh
  constructor
  · rw [average, le_div_iff₀ hlength]
    linarith
  · rw [average, div_le_iff₀ hlength]
    linarith

/-- Samples between two bounds are not farther from the middle than the bounds are. -/
theorem squaredDistance_middle_le (hxs : ∀ x ∈ xs, a ≤ x ∧ x ≤ b) :
    squaredDistance ((a + b) / 2) xs ≤ xs.length * ((b - a) ^ 2 / 4) := by
  have hsquare : ∀ y ∈ xs.map fun x => (x - (a + b) / 2) ^ 2, y ≤ (b - a) ^ 2 / 4 := by
    simp only [List.forall_mem_map]
    intro x hx
    obtain ⟨hlow, hhigh⟩ := hxs x hx
    have hproduct : 0 ≤ (x - a) * (b - x) := mul_nonneg (by linarith) (by linarith)
    linarith [show (b - a) ^ 2 / 4 - (x - (a + b) / 2) ^ 2 = (x - a) * (b - x) by ring]
  have hsum := List.sum_le_card_nsmul _ _ hsquare
  rwa [List.length_map, nsmul_eq_mul] at hsum

theorem sampleVariance_nonneg (h : 2 ≤ xs.length) : 0 ≤ sampleVariance xs := by
  have hlength : (2 : α) ≤ xs.length := by exact_mod_cast h
  exact div_nonneg (squaredDistance_nonneg _ _) (by linarith)

/-- A quarter of the square for each sample is not more than all of it for each but one. -/
theorem sampleVariance_le (h : 2 ≤ xs.length) (hxs : ∀ x ∈ xs, a ≤ x ∧ x ≤ b) :
    sampleVariance xs ≤ (b - a) ^ 2 := by
  have hlength : (2 : α) ≤ xs.length := by exact_mod_cast h
  have hne : xs ≠ [] := List.ne_nil_of_length_pos (by omega)
  have hsquare : 0 ≤ (b - a) ^ 2 := sq_nonneg _
  rw [sampleVariance, div_le_iff₀ (by linarith)]
  calc squaredDistance (average xs) xs
      ≤ squaredDistance ((a + b) / 2) xs := squaredDistance_average_le hne _
    _ ≤ xs.length * ((b - a) ^ 2 / 4) := squaredDistance_middle_le hxs
    _ ≤ (b - a) ^ 2 * (xs.length - 1) := by nlinarith

/-! ## Bounds that never take effect -/

/-- The variance by one pass over the samples, before it is kept from being negative. -/
def onePassVariance (s : SampleStatistics α) : α :=
  (s.sumOfSquares - s.sum * s.sum / (s.samples : α)) / ((s.samples : α) - 1)

omit [Field α] [IsStrictOrderedRing α] in
theorem clamp_of_mem (h : a ≤ x ∧ x ≤ b) : clamp a b x = x := by
  simp [clamp, h.1.not_gt, h.2.not_gt]

namespace Summarises

theorem mean_eq (h : Summarises s xs) (hne : xs ≠ []) : s.mean = .ok (some (average xs)) := by
  have hempty := h.isEmpty_iff.not.mpr hne
  have hclamp := clamp_of_mem (average_mem_Icc hne (h.bounds hne))
  simp [mean, hempty, h.least_le_most hne, h.quotient_eq_average, hclamp]

theorem onePassVariance_eq (h : Summarises s xs) (hne : xs ≠ []) :
    s.onePassVariance = sampleVariance xs := by
  rw [onePassVariance, h.sumOfSquares, h.sum, h.samples, ← squaredDistance_average hne,
    sampleVariance]

theorem sampleVariance_eq_zero (h : Summarises s xs) (htwo : 2 ≤ xs.length)
    (hsame : s.least = s.most) : sampleVariance xs = 0 := by
  have hne : xs ≠ [] := List.ne_nil_of_length_pos (by omega)
  have hle := sampleVariance_le htwo (h.bounds hne)
  rw [hsame, sub_self, zero_pow two_ne_zero] at hle
  exact hle.antisymm (sampleVariance_nonneg htwo)

theorem variance_eq (h : Summarises s xs) (htwo : 2 ≤ xs.length) :
    s.variance = some (sampleVariance xs) := by
  have hne : xs ≠ [] := List.ne_nil_of_length_pos (by omega)
  have hsamples : ¬ s.samples < 2 := by rwa [h.samples, not_lt]
  rw [variance, if_neg hsamples]
  by_cases hsame : s.least = s.most
  · simp [hsame, h.sampleVariance_eq_zero htwo hsame]
  · have hquotient := h.onePassVariance_eq hne
    rw [onePassVariance] at hquotient
    simp [hsame, hquotient, sampleVariance_nonneg htwo]

theorem deviation_eq (h : Summarises s xs) (htwo : 2 ≤ xs.length) {root : α → α}
    (hroot : root (sampleVariance xs) ^ 2 = sampleVariance xs) :
    s.deviation root = some (root (sampleVariance xs)) := by
  have hne : xs ≠ [] := List.ne_nil_of_length_pos (by omega)
  have hle := sampleVariance_le htwo (h.bounds hne)
  rw [← hroot] at hle
  have hspread : root (sampleVariance xs) ≤ s.most - s.least :=
    le_of_sq_le_sq hle (sub_nonneg.mpr (h.least_le_most hne))
  simp [deviation, h.variance_eq htwo, hspread.not_gt]

end Summarises

/-- Of any samples, the statistics tell the extremes and the average, which is what the bounded
quotient is without its bounds. Of two samples or more they tell the sample variance. The formula
for one pass gives that as it is: it is never negative, it is zero for samples that are all the
same, and a square root of it never exceeds the distance of the extremes. -/
theorem ofList_exact (xs : List α) :
    (xs ≠ [] →
      IsLeast {x | x ∈ xs} (ofList xs).least ∧ IsGreatest {x | x ∈ xs} (ofList xs).most ∧
      clamp (ofList xs).least (ofList xs).most ((ofList xs).sum / ((ofList xs).samples : α)) =
        (ofList xs).sum / ((ofList xs).samples : α) ∧
      (ofList xs).mean = .ok (some (average xs))) ∧
    (2 ≤ xs.length →
      (ofList xs).onePassVariance = sampleVariance xs ∧
      0 ≤ (ofList xs).onePassVariance ∧
      ((ofList xs).least = (ofList xs).most → (ofList xs).onePassVariance = 0) ∧
      (ofList xs).variance = some (sampleVariance xs) ∧
      sampleVariance xs ≤ ((ofList xs).most - (ofList xs).least) ^ 2 ∧
      ∀ root : α → α, root (sampleVariance xs) ^ 2 = sampleVariance xs →
        (ofList xs).deviation root = some (root (sampleVariance xs))) := by
  have h := summarises_ofList xs
  constructor
  · intro hne
    refine ⟨h.least hne, h.most hne, clamp_of_mem ?_, h.mean_eq hne⟩
    rw [h.quotient_eq_average]
    exact average_mem_Icc hne (h.bounds hne)
  · intro htwo
    have hne : xs ≠ [] := List.ne_nil_of_length_pos (by omega)
    rw [h.onePassVariance_eq hne]
    exact ⟨rfl, sampleVariance_nonneg htwo, h.sampleVariance_eq_zero htwo, h.variance_eq htwo,
      sampleVariance_le htwo (h.bounds hne), fun _ => h.deviation_eq htwo⟩

/-- Three rational samples, and two real ones with a deviation that is not rational. -/
theorem ofList_exact_ninety :
    (ofList [89, 91, (90 : ℚ)]).mean = .ok (some 90) ∧
      (ofList [89, 91, (90 : ℚ)]).variance = some 1 ∧
      (ofList [-1, (1 : ℝ)]).deviation Real.sqrt = some (Real.sqrt 2) := by
  obtain ⟨hone, htwo⟩ := ofList_exact [89, 91, (90 : ℚ)]
  obtain ⟨-, -, -, hmean⟩ := hone (by simp)
  obtain ⟨-, -, -, hvariance, -, -⟩ := htwo (by simp)
  obtain ⟨-, -, -, -, -, hdeviation⟩ := (ofList_exact [-1, (1 : ℝ)]).2 (by simp)
  have haverage : average [89, 91, (90 : ℚ)] = 90 := by norm_num [average]
  have hrational : sampleVariance [89, 91, (90 : ℚ)] = 1 := by
    norm_num [sampleVariance, squaredDistance, haverage]
  have hreal : sampleVariance [-1, (1 : ℝ)] = 2 := by
    norm_num [sampleVariance, squaredDistance, average]
  rw [haverage] at hmean
  rw [hrational] at hvariance
  rw [hreal] at hdeviation
  exact ⟨hmean, hvariance, hdeviation Real.sqrt (Real.sq_sqrt (by norm_num))⟩

end SampleStatistics
end MaximalCliques

import Mathlib.Algebra.Order.Group.Nat
import Mathlib.Tactic.ByContra
import MaximalCliques.Random.Graph

/-!
# Drawing numbers and pairs

A number is drawn when a first word comes that is not rejected. These relations say so without a bound
on how many words that takes; the functions that draw agree with them as soon as they have fuel for
the words there are. Numbers that are drawn are below the bound, and each of those can be drawn.
-/

namespace MaximalCliques

/-- A number below `bound` is drawn from the source, and what is left of the source. -/
inductive DrawsBelow {σ : Type} [WordSource σ] (bound : ℕ) : σ → ℕ → σ → Prop
  | accept {source rest : σ} {w : UInt64} (hnext : WordSource.next? source = some (w, rest))
      (hlow : w.toNat * bound % countBound < bound <<< (63 - Nat.log2 bound)) :
    DrawsBelow bound source (w.toNat * bound / countBound) rest
  | reject {source later rest : σ} {w : UInt64} {n : ℕ}
      (hnext : WordSource.next? source = some (w, later))
      (hlow : ¬ w.toNat * bound % countBound < bound <<< (63 - Nat.log2 bound))
      (hlater : DrawsBelow bound later n rest) :
    DrawsBelow bound source n rest

def DrawsPair {σ : Type} [WordSource σ] (order : ℕ) (source : σ) (pair : Edge) (rest : σ) : Prop :=
  ∃ between, DrawsBelow order source pair.1 between ∧ DrawsBelow order between pair.2 rest

variable {σ : Type} [WordSource σ] {bound order n fuel : ℕ} {pair : Edge} {source rest : σ}

/-! ## Fuel -/

theorem DrawsBelow.of_drawBelow (h : drawBelow bound fuel source = some (n, rest)) :
    DrawsBelow bound source n rest := by
  induction fuel generalizing source with
  | zero => simp [drawBelow] at h
  | succ fuel ih =>
    simp only [drawBelow] at h
    split at h
    · cases h
    · next w later hnext =>
      split_ifs at h with hlow
      · cases h
        exact .accept hnext hlow
      · exact .reject hnext hlow (ih h)

theorem DrawsBelow.exists_fuel (h : DrawsBelow bound source n rest) :
    ∃ least, ∀ fuel ≥ least, drawBelow bound fuel source = some (n, rest) := by
  induction h with
  | accept hnext hlow =>
    refine ⟨1, fun fuel hfuel => ?_⟩
    obtain ⟨fuel, rfl⟩ := Nat.exists_eq_add_of_le' hfuel
    simp only [drawBelow, hnext, hlow, if_true]
  | reject hnext hlow _ ih =>
    obtain ⟨least, ih⟩ := ih
    refine ⟨least + 1, fun fuel hfuel => ?_⟩
    obtain ⟨fuel, rfl⟩ := Nat.exists_eq_add_of_le' hfuel
    simp only [drawBelow, hnext, hlow, if_false]
    exact ih _ (Nat.le_add_left _ _)

theorem DrawsPair.of_drawPair (h : drawPair order fuel source = some (pair, rest)) :
    DrawsPair order source pair rest := by
  unfold drawPair at h
  split at h
  · cases h
  · next a between hfst =>
    split at h
    · cases h
    · next b rest' hsnd =>
      cases h
      exact ⟨between, .of_drawBelow hfst, .of_drawBelow hsnd⟩

theorem DrawsPair.exists_fuel (h : DrawsPair order source pair rest) :
    ∃ least, ∀ fuel ≥ least, drawPair order fuel source = some (pair, rest) := by
  obtain ⟨between, hfst, hsnd⟩ := h
  obtain ⟨least, hfst⟩ := hfst.exists_fuel
  obtain ⟨least', hsnd⟩ := hsnd.exists_fuel
  refine ⟨max least least', fun fuel hfuel => ?_⟩
  have hle := hfst fuel ((le_max_left _ _).trans hfuel)
  have hle' := hsnd fuel ((le_max_right _ _).trans hfuel)
  simp only [drawPair, hle, hle']

/-! ## The numbers that are drawn -/

theorem DrawsBelow.lt (h : DrawsBelow bound source n rest) : n < bound := by
  induction h with
  | @accept _ _ w hnext hlow =>
    -- Nothing is drawn below zero: the rejected words would be all of them.
    have hpos : 0 < bound := by
      by_contra! hzero
      simp [Nat.le_zero.mp hzero] at hlow
    apply Nat.div_lt_of_lt_mul
    exact Nat.mul_lt_mul_of_pos_right w.toNat_lt hpos
  | reject _ _ _ ih => exact ih

theorem DrawsPair.lt (h : DrawsPair order source pair rest) : pair.1 < order ∧ pair.2 < order := by
  obtain ⟨between, hfst, hsnd⟩ := h
  exact ⟨hfst.lt, hsnd.lt⟩

end MaximalCliques

/-!
# Chunks of 64 membership bits

A chunk is a machine word whose bit `i` tells whether the vertex at place `i` is present. Everything
about a chunk is said through `Chunk.test`.
-/

namespace MaximalCliques

abbrev Chunk := UInt64

namespace Chunk

/-- Is the vertex at place `i` present? -/
def test (c : Chunk) (i : Nat) : Bool := c.toBitVec.getLsbD i

def single (i : Nat) : Chunk := UInt64.ofBitVec (BitVec.twoPow 64 i)

/-- The places present in the lowest `n` bits, ascending, each moved up by `i`. -/
def placesFrom (i : Nat) : Nat → Chunk → List Nat
  | 0, _ => []
  | n + 1, c => if c &&& 1 = 1 then i :: placesFrom (i + 1) n (c >>> 1) else placesFrom (i + 1) n (c >>> 1)

def countFrom : Nat → Chunk → Nat
  | 0, _ => 0
  | n + 1, c => (c &&& 1).toNat + countFrom n (c >>> 1)

def places (c : Chunk) : List Nat := placesFrom 0 64 c

def count (c : Chunk) : Nat := countFrom 64 c

def highest (c : Chunk) : Nat := Nat.log2 c.toNat

@[simp] theorem test_zero (i : Nat) : test 0 i = false := by simp [test]

theorem test_of_le (c : Chunk) {i : Nat} (h : 64 ≤ i) : test c i = false := by
  simp [test, BitVec.getLsbD_of_ge, h]

theorem lt_of_test {c : Chunk} {i : Nat} (h : test c i = true) : i < 64 := by
  rcases Nat.lt_or_ge i 64 with hlt | hge
  · exact hlt
  · rw [test_of_le c hge] at h; cases h

theorem test_single (i j : Nat) : test (single i) j = (decide (i < 64) && decide (i = j)) := by
  simp [test, single, BitVec.getLsbD_twoPow]

theorem test_or (c d : Chunk) (i : Nat) : test (c ||| d) i = (test c i || test d i) := by
  simp [test]

theorem test_and (c d : Chunk) (i : Nat) : test (c &&& d) i = (test c i && test d i) := by
  simp [test]

theorem test_not (c : Chunk) (i : Nat) : test (~~~c) i = (decide (i < 64) && !test c i) := by
  simp [test]

theorem test_shiftRight_one (c : Chunk) (i : Nat) : test (c >>> 1) i = test c (i + 1) := by
  simp [test, Nat.add_comm]

theorem ext {c d : Chunk} (h : ∀ i < 64, test c i = test d i) : c = d := by
  rw [← UInt64.toBitVec_inj]
  exact BitVec.eq_of_getLsbD_eq h

theorem eq_zero_iff (c : Chunk) : c = 0 ↔ ∀ i < 64, test c i = false :=
  ⟨fun h => by simp [h], fun h => ext (by simpa using h)⟩

theorem and_one_eq_one_iff (c : Chunk) : c &&& 1 = 1 ↔ test c 0 = true := by
  constructor
  · intro h
    have := congrArg (test · 0) h
    simpa [test_and, test] using this
  · intro h
    apply ext
    intro i hi
    by_cases h0 : i = 0
    · subst h0; simp [test_and, h]
    · simp [test_and]
      intro h1
      simp [test, BitVec.getLsbD_one, h0] at h1

theorem toNat_and_one (c : Chunk) : (c &&& 1).toNat = if test c 0 then 1 else 0 := by
  by_cases h : test c 0 = true
  · rw [(and_one_eq_one_iff c).2 h, if_pos h]; rfl
  · have h0 : c &&& 1 = 0 := by
      apply ext
      intro i hi
      by_cases h0 : i = 0
      · subst h0; simpa [test_and] using fun h' => absurd h' h
      · simp [test_and]
        intro _
        simp [test, BitVec.getLsbD_one, h0]
    rw [h0, if_neg h]; rfl

theorem mem_placesFrom (i n : Nat) (c : Chunk) (j : Nat) :
    j ∈ placesFrom i n c ↔ ∃ k < n, j = i + k ∧ test c k = true := by
  induction n generalizing i c with
  | zero => simp [placesFrom]
  | succ n ih =>
    have step : (∃ k < n + 1, j = i + k ∧ test c k = true) ↔
        (j = i ∧ test c 0 = true) ∨ ∃ k < n, j = i + 1 + k ∧ test (c >>> 1) k = true := by
      simp only [test_shiftRight_one]
      constructor
      · rintro ⟨k, hk, rfl, ht⟩
        cases k with
        | zero => exact .inl ⟨rfl, ht⟩
        | succ k => exact .inr ⟨k, by omega, by omega, ht⟩
      · rintro (⟨rfl, ht⟩ | ⟨k, hk, rfl, ht⟩)
        · exact ⟨0, by omega, rfl, ht⟩
        · exact ⟨k + 1, by omega, by omega, ht⟩
    simp only [step, placesFrom, and_one_eq_one_iff]
    split <;> simp_all

theorem mem_places (c : Chunk) (i : Nat) : i ∈ places c ↔ test c i = true := by
  rw [places, mem_placesFrom]
  constructor
  · rintro ⟨k, -, rfl, h⟩; simpa using h
  · exact fun h => ⟨i, lt_of_test h, by omega, h⟩

theorem pairwise_placesFrom (i n : Nat) (c : Chunk) : (placesFrom i n c).Pairwise (· < ·) := by
  induction n generalizing i c with
  | zero => simp [placesFrom]
  | succ n ih =>
    rw [placesFrom]
    split
    · refine List.pairwise_cons.2 ⟨fun j hj => ?_, ih _ _⟩
      obtain ⟨k, -, rfl, -⟩ := (mem_placesFrom _ _ _ _).1 hj
      omega
    · exact ih _ _

theorem pairwise_places (c : Chunk) : (places c).Pairwise (· < ·) := pairwise_placesFrom 0 64 c

theorem length_placesFrom (i n : Nat) (c : Chunk) : (placesFrom i n c).length = countFrom n c := by
  induction n generalizing i c with
  | zero => rfl
  | succ n ih =>
    simp only [placesFrom, countFrom, toNat_and_one, and_one_eq_one_iff]
    split
    · simp only [List.length_cons, ih]
      omega
    · simp [ih]

theorem length_places (c : Chunk) : (places c).length = count c := length_placesFrom 0 64 c

theorem test_eq_testBit (c : Chunk) (i : Nat) : test c i = c.toNat.testBit i := rfl

theorem test_highest {c : Chunk} (h : c ≠ 0) : test c (highest c) = true := by
  have : c.toNat ≠ 0 := fun h' => h (UInt64.toNat_inj.1 (by simpa using h'))
  rw [test_eq_testBit, highest]
  exact Nat.testBit_log2 this

theorem highest_lt {c : Chunk} (h : c ≠ 0) : highest c < 64 := lt_of_test (test_highest h)

theorem le_highest {c : Chunk} {i : Nat} (h : test c i = true) : i ≤ highest c := by
  rw [test_eq_testBit] at h
  have hpow : 2 ^ i ≤ c.toNat := Nat.ge_two_pow_of_testBit h
  have hne : c.toNat ≠ 0 := by
    have := Nat.two_pow_pos i
    omega
  exact (Nat.le_log2 hne).2 hpow

end Chunk
end MaximalCliques

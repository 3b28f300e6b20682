import Mathlib.Data.List.Basic
import Mathlib.Data.List.Induction
import Mathlib.Data.Nat.Digits.Defs
import Mathlib.Tactic.IntervalCases
import MaximalCliques.Numeral
import MaximalCliques.Proofs.Checks

/-!
# Numerals and what they denote

A written numeral consists of digits, and reading it gives the number that was written. In general a
numeral denotes the value of its digits, and reading gives a value exactly if the numeral denotes
one below the bound.
-/

namespace MaximalCliques
namespace Numeral

variable {bound n : ℕ} {c : Char} {cs : List Char}

theorem write_eq (n : ℕ) :
    write n = (if n < 10 then [] else write (n / 10)) ++ [Nat.digitChar (n % 10)] := by
  unfold write
  rw [Nat.toDigits_eq_if (by decide)]
  split_ifs with h
  · rw [Nat.mod_eq_of_lt h, List.nil_append]
  · rfl

theorem digit?_digitChar {d : ℕ} (hd : d < 10) : digit? (Nat.digitChar d) = some d := by
  interval_cases d <;> decide

theorem isSome_digit?_iff : (digit? c).isSome ↔ '0'.toNat ≤ c.toNat ∧ c.toNat ≤ '9'.toNat := by
  simp [digit?]

theorem readDigits_append (bound : ℕ) (cs : List Char) (c : Char) :
    readDigits bound (cs ++ [c]) = readDigits bound cs >>= fun n => appendDigit bound n c := by
  simp [readDigits]

theorem readDigits_write (h : n < bound) : readDigits bound (write n) = .ok n := by
  induction n using Nat.strongRecOn with
  | ind n ih =>
    have hlast : appendDigit bound (n / 10) (Nat.digitChar (n % 10)) = .ok n := by
      have hvalue : n / 10 * 10 + n % 10 = n := by omega
      simp only [appendDigit, digit?_digitChar (Nat.mod_lt n (by decide)), hvalue, if_pos h]
    have hfront : readDigits bound (if n < 10 then [] else write (n / 10)) = .ok (n / 10) := by
      split_ifs with hn
      · rw [Nat.div_eq_of_lt hn]
        rfl
      · exact ih (n / 10) (by omega) (by omega)
    rw [write_eq, readDigits_append, hfront]
    exact hlast

theorem isSome_digit?_of_mem_write (h : c ∈ write n) : (digit? c).isSome := by
  induction n using Nat.strongRecOn with
  | ind n ih =>
    rw [write_eq, List.mem_append, List.mem_singleton] at h
    rcases h with h | rfl
    · split_ifs at h with hn
      · cases h
      · exact ih (n / 10) (by omega) h
    · rw [digit?_digitChar (Nat.mod_lt n (by decide))]
      rfl

theorem write_ne_nil (n : ℕ) : write n ≠ [] := by
  rw [write_eq]
  simp

theorem read_write (h : n < bound) : read bound (write n) = .ok n := by
  have hread := readDigits_write h
  cases hcs : write n with
  | nil => exact absurd hcs (write_ne_nil n)
  | cons c cs =>
    have hsign : c ≠ '+' := by
      rintro rfl
      have hdigit := isSome_digit?_of_mem_write (hcs ▸ List.mem_cons_self : '+' ∈ write n)
      exact absurd (isSome_digit?_iff.mp hdigit).1 (by decide)
    rw [hcs] at hread
    rw [read]
    · exact hread
    · simp
    · simpa using fun heq => absurd heq hsign
    · simpa using hsign

theorem write_injective : Function.Injective write := by
  intro m n h
  have hm : read (max m n + 1) (write m) = .ok m := read_write (by omega)
  have hn : read (max m n + 1) (write n) = .ok n := read_write (by omega)
  rw [h, hn] at hm
  exact (Except.ok.inj hm).symm

/-! ## What a numeral denotes -/

/-- A numeral denotes a number: an optional plus sign, then at least one digit, the most significant
first. -/
def Denotes (cs : List Char) (n : ℕ) : Prop :=
  ∃ ds : List ℕ, ds ≠ [] ∧ (∀ d ∈ ds, d < 10) ∧ Nat.ofDigits 10 ds.reverse = n ∧
    (cs = ds.map Nat.digitChar ∨ cs = '+' :: ds.map Nat.digitChar)

theorem Denotes.ne_nil (h : Denotes cs n) : cs ≠ [] := by
  obtain ⟨ds, hne, -, -, rfl | rfl⟩ := h <;> simp [hne]

theorem Denotes.eq_plus_or_isSome_digit? (h : Denotes cs n) (hc : c ∈ cs) :
    c = '+' ∨ (digit? c).isSome := by
  obtain ⟨ds, -, hds, -, hcs⟩ := h
  have hdigit : ∀ c ∈ ds.map Nat.digitChar, (digit? c).isSome := by
    rw [List.forall_mem_map]
    exact fun d hd => by simp [digit?_digitChar (hds d hd)]
  rcases hcs with rfl | rfl
  · exact .inr (hdigit c hc)
  · exact (List.mem_cons.mp hc).imp_right (hdigit c)

theorem digit?_eq_some_iff {d : ℕ} : digit? c = some d ↔ d < 10 ∧ c = Nat.digitChar d := by
  constructor
  · intro h
    obtain ⟨⟨hlow, hhigh⟩, hvalue⟩ : ('0'.toNat ≤ c.toNat ∧ c.toNat ≤ '9'.toNat) ∧
        c.toNat - '0'.toNat = d := by
      simpa [digit?] using h
    have hzero : '0'.toNat = 48 := rfl
    have hnine : '9'.toNat = 57 := rfl
    have hd : d < 10 := by omega
    have hcode : c.toNat = (Nat.digitChar d).toNat := by
      rw [Nat.toNat_digitChar_of_lt_ten hd]
      omega
    exact ⟨hd, Char.toNat_inj.mp hcode⟩
  · rintro ⟨hd, rfl⟩
    exact digit?_digitChar hd

theorem appendDigit_eq_ok_iff {value : ℕ} :
    appendDigit bound value c = .ok n ↔
      ∃ d, digit? c = some d ∧ value * 10 + d = n ∧ n < bound := by
  unfold appendDigit
  cases digit? c with
  | none => simp
  | some d =>
    simp only [Option.some.injEq, exists_eq_left']
    split_ifs with h
    · simp
      omega
    · simp
      omega

theorem readDigits_append_eq_ok_iff :
    readDigits bound (cs ++ [c]) = .ok n ↔
      ∃ m, readDigits bound cs = .ok m ∧ ∃ d, digit? c = some d ∧ m * 10 + d = n ∧ n < bound := by
  simp only [readDigits_append, bind_eq_ok_iff, appendDigit_eq_ok_iff]

theorem ofDigits_reverse_append (ds : List ℕ) (d : ℕ) :
    Nat.ofDigits 10 (ds ++ [d]).reverse = Nat.ofDigits 10 ds.reverse * 10 + d := by
  rw [List.reverse_append, List.reverse_singleton, List.singleton_append, Nat.ofDigits_cons]
  omega

/-- Digits are read to their value, if that is below the bound: no earlier value is greater. -/
theorem readDigits_eq_ok_iff (hbound : 0 < bound) :
    readDigits bound cs = .ok n ↔
      n < bound ∧ ∃ ds : List ℕ, (∀ d ∈ ds, d < 10) ∧ cs = ds.map Nat.digitChar ∧
        Nat.ofDigits 10 ds.reverse = n := by
  induction cs using List.reverseRecOn generalizing n with
  | nil =>
    simp [readDigits, pure, Except.pure]
    omega
  | append_singleton cs c ih =>
    rw [readDigits_append_eq_ok_iff]
    constructor
    · rintro ⟨m, hm, d, hd, hn, hlt⟩
      obtain ⟨-, ds, hds, rfl, hvalue⟩ := ih.mp hm
      obtain ⟨hten, rfl⟩ := digit?_eq_some_iff.mp hd
      have hall : ∀ e ∈ ds ++ [d], e < 10 := by
        simpa [or_imp, forall_and] using ⟨hds, hten⟩
      exact ⟨hlt, ds ++ [d], hall, by simp, by rw [ofDigits_reverse_append, hvalue, hn]⟩
    · rintro ⟨hlt, ds, hds, hcs, hvalue⟩
      rcases List.eq_nil_or_concat' ds with rfl | ⟨ds, d, rfl⟩
      · simp at hcs
      · rw [List.map_append, List.map_singleton] at hcs
        obtain ⟨rfl, hc⟩ := List.append_inj' hcs rfl
        obtain rfl : c = Nat.digitChar d := by simpa using hc
        rw [ofDigits_reverse_append] at hvalue
        have hten : d < 10 := hds d (by simp)
        have hfront : readDigits bound (ds.map Nat.digitChar) =
            .ok (Nat.ofDigits 10 ds.reverse) :=
          ih.mpr ⟨by omega, ds, fun e he => hds e (by simp [he]), rfl, rfl⟩
        exact ⟨_, hfront, d, digit?_eq_some_iff.mpr ⟨hten, rfl⟩, hvalue, hlt⟩

theorem read_plus_cons (hne : cs ≠ []) : read bound ('+' :: cs) = readDigits bound cs := by
  rw [read]
  simpa using hne

theorem read_of_ne_plus (hne : cs ≠ []) (hsign : ∀ c ∈ cs.head?, c ≠ '+') :
    read bound cs = readDigits bound cs := by
  unfold read
  split <;> simp_all

theorem read_eq_ok_iff (hbound : 0 < bound) :
    read bound cs = .ok n ↔ Denotes cs n ∧ n < bound := by
  constructor
  · intro h
    unfold read at h
    split at h
    · cases h
    · cases h
    · rename_i hne
      obtain ⟨hlt, ds, hds, rfl, hvalue⟩ := (readDigits_eq_ok_iff hbound).mp h
      exact ⟨⟨ds, by simpa using hne, hds, hvalue, .inr rfl⟩, hlt⟩
    · rename_i hne _ _
      obtain ⟨hlt, ds, hds, rfl, hvalue⟩ := (readDigits_eq_ok_iff hbound).mp h
      exact ⟨⟨ds, by simpa using hne, hds, hvalue, .inl rfl⟩, hlt⟩
  · rintro ⟨⟨ds, hne, hds, hvalue, hcs⟩, hlt⟩
    have hread : readDigits bound (ds.map Nat.digitChar) = .ok n :=
      (readDigits_eq_ok_iff hbound).mpr ⟨hlt, ds, hds, rfl, hvalue⟩
    have hne' : ds.map Nat.digitChar ≠ [] := by simpa using hne
    rcases hcs with rfl | rfl
    · obtain ⟨d, ds, rfl⟩ := List.exists_cons_of_ne_nil hne
      have hdigit := digit?_digitChar (hds d List.mem_cons_self)
      have hsign : ∀ c ∈ (List.map Nat.digitChar (d :: ds)).head?, c ≠ '+' := by
        rintro c ⟨⟩ heq
        rw [heq] at hdigit
        cases hdigit
      exact (read_of_ne_plus hne' hsign).trans hread
    · exact (read_plus_cons hne').trans hread

theorem denotes_write (n : ℕ) : Denotes (write n) n :=
  ((read_eq_ok_iff n.succ_pos).mp (read_write n.lt_succ_self)).1

/-! ## Spellings of a number -/

theorem write_append_digitChar {d : ℕ} (hn : 0 < n) (hd : d < 10) :
    write n ++ [Nat.digitChar d] = write (n * 10 + d) := by
  have hdiv : (n * 10 + d) / 10 = n := by omega
  have hmod : (n * 10 + d) % 10 = d := by omega
  rw [write_eq (n * 10 + d), if_neg (by omega), hdiv, hmod]

theorem exists_map_digitChar_eq {ds : List ℕ} (hne : ds ≠ []) (hds : ∀ d ∈ ds, d < 10) :
    ∃ zeros, ds.map Nat.digitChar =
      List.replicate zeros '0' ++ write (Nat.ofDigits 10 ds.reverse) := by
  induction ds using List.reverseRecOn with
  | nil => exact absurd rfl hne
  | append_singleton ds d ih =>
    have hd : d < 10 := hds d (by simp)
    rw [ofDigits_reverse_append, List.map_append, List.map_singleton]
    rcases eq_or_ne ds [] with rfl | hfront
    · exact ⟨0, by simp [write_eq d, hd, Nat.mod_eq_of_lt hd]⟩
    · obtain ⟨zeros, hzeros⟩ := ih hfront fun e he => hds e (by simp [he])
      rw [hzeros]
      rcases Nat.eq_zero_or_pos (Nat.ofDigits 10 ds.reverse) with hvalue | hpos
      · -- The digits before the last are zeros all of them.
        refine ⟨zeros + 1, ?_⟩
        rw [hvalue, Nat.zero_mul, Nat.zero_add, write_eq d, if_pos hd, Nat.mod_eq_of_lt hd,
          List.replicate_succ']
        rfl
      · exact ⟨zeros, by rw [List.append_assoc, write_append_digitChar hpos hd]⟩

/-- A numeral is the written number, but for a sign and zeros in front. -/
theorem Denotes.exists_spelling (h : Denotes cs n) :
    ∃ sign zeros, (sign = [] ∨ sign = ['+']) ∧
      cs = sign ++ (List.replicate zeros '0' ++ write n) := by
  obtain ⟨ds, hne, hds, rfl, hcs⟩ := h
  obtain ⟨zeros, hzeros⟩ := exists_map_digitChar_eq hne hds
  rcases hcs with rfl | rfl
  · exact ⟨[], zeros, .inl rfl, hzeros⟩
  · exact ⟨['+'], zeros, .inr rfl, congrArg ('+' :: ·) hzeros⟩

end Numeral
end MaximalCliques

import Mathlib.Data.List.Basic

/-!
# Checks one after another

Two steps succeed when both do, and fail as the first one that does not. So does a list of checks.
-/

namespace MaximalCliques

section Steps

variable {α β ε : Type} {x : Except ε α} {f : α → Except ε β} {a : α} {b : β} {e : ε}

theorem bind_eq_ok_iff : x >>= f = .ok b ↔ ∃ a, x = .ok a ∧ f a = .ok b := by
  cases x <;> simp [bind, Except.bind]

theorem bind_eq_error_iff :
    x >>= f = .error e ↔ x = .error e ∨ ∃ a, x = .ok a ∧ f a = .error e := by
  cases x <;> simp [bind, Except.bind]

theorem toOption_eq_some_iff : x.toOption = some a ↔ x = .ok a := by
  cases x <;> simp [Except.toOption]

end Steps

variable {α ε : Type} (check : α → Except ε Unit)

theorem forM_cons_of_ok {x : α} (hx : check x = .ok ()) (xs : List α) :
    (x :: xs).forM check = xs.forM check := by
  rw [List.forM_eq_forM, List.forM_cons, hx]
  rfl

theorem forM_cons_of_error {x : α} {e : ε} (hx : check x = .error e) (xs : List α) :
    (x :: xs).forM check = .error e := by
  rw [List.forM_eq_forM, List.forM_cons, hx]
  rfl

theorem forM_eq_ok_iff (xs : List α) :
    xs.forM check = .ok () ↔ ∀ x ∈ xs, check x = .ok () := by
  induction xs with
  | nil => simp [pure, Except.pure]
  | cons x xs ih =>
    rw [List.forall_mem_cons]
    cases hx : check x with
    | error e =>
      rw [forM_cons_of_error check hx]
      simp
    | ok u =>
      rw [forM_cons_of_ok check hx, ih]
      simp

theorem forM_eq_error_iff (xs : List α) (e : ε) :
    xs.forM check = .error e ↔
      ∃ before x after, xs = before ++ x :: after ∧ (∀ y ∈ before, check y = .ok ()) ∧
        check x = .error e := by
  induction xs with
  | nil => simp [pure, Except.pure]
  | cons x xs ih =>
    cases hx : check x with
    | error f =>
      rw [forM_cons_of_error check hx]
      constructor
      · intro h
        exact ⟨[], x, xs, rfl, by simp, hx.trans h⟩
      · rintro ⟨before, y, after, hsplit, hbefore, hy⟩
        cases before with
        | nil =>
          obtain ⟨rfl, rfl⟩ := List.cons.inj hsplit
          exact hx.symm.trans hy
        | cons z before =>
          obtain ⟨rfl, rfl⟩ := List.cons.inj hsplit
          have hz := hbefore x List.mem_cons_self
          rw [hx] at hz
          cases hz
    | ok u =>
      rw [forM_cons_of_ok check hx, ih]
      constructor
      · rintro ⟨before, y, after, rfl, hbefore, hy⟩
        refine ⟨x :: before, y, after, rfl, ?_, hy⟩
        rw [List.forall_mem_cons]
        exact ⟨hx, hbefore⟩
      · rintro ⟨before, y, after, hsplit, hbefore, hy⟩
        cases before with
        | nil =>
          obtain ⟨rfl, rfl⟩ := List.cons.inj hsplit
          rw [hx] at hy
          cases hy
        | cons z before =>
          obtain ⟨rfl, rfl⟩ := List.cons.inj hsplit
          exact ⟨before, y, after, rfl, (List.forall_mem_cons.mp hbefore).2, hy⟩

theorem forM_congr {check check' : α → Except ε Unit} {xs : List α}
    (h : ∀ x ∈ xs, check x = check' x) : xs.forM check = xs.forM check' := by
  induction xs with
  | nil => rfl
  | cons x xs ih =>
    obtain ⟨hx, hxs⟩ := List.forall_mem_cons.mp h
    cases hcheck : check' x with
    | error e => rw [forM_cons_of_error check (hx.trans hcheck), forM_cons_of_error check' hcheck]
    | ok u => rw [forM_cons_of_ok check (hx.trans hcheck), forM_cons_of_ok check' hcheck, ih hxs]

end MaximalCliques

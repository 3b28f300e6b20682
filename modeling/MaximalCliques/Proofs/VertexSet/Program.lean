import Mathlib.Data.Nat.Notation
import Mathlib.Logic.Function.Basic
import MaximalCliques.VertexSet

/-!
# Programs over named sets

A program makes sets, changes them and asks about them, and knows each of them by a name. It runs
over any representation of vertex sets. Two representations whose sets are related, and stay so
whatever is done to them, cannot be told apart by a program: one instruction keeps the relation and
gets the same answer from both, and so does a whole program. Whether the answers may depend on the
order of the members decides which relations do.
-/

namespace MaximalCliques.SetProgram

open VertexSet

inductive Instruction where
  | empty (target : ℕ)
  | withCapacity (target capacity : ℕ)
  | ofList (target : ℕ) (vs : List ℕ)
  | clone (target source : ℕ)
  | insert (name v : ℕ)
  | remove (name v : ℕ)
  | pop (name : ℕ)
  | intersection (target left right : ℕ)
  | difference (target left right : ℕ)
  | list (name : ℕ)
  | size (name : ℕ)
  | isEmpty (name : ℕ)
  | contains (name v : ℕ)
  | intersectionSize (left right : ℕ)
  | isDisjoint (left right : ℕ)
  | equal (left right : ℕ)

inductive Answer where
  | done
  | flag (value : Bool)
  | number (value : ℕ)
  | vertices (vs : List ℕ)
  | popped (vertex : Except Error ℕ)

/-- Neither pops nor lists a set, so the order of its members plays no part. -/
def Instruction.IsOrderFree : Instruction → Prop
  | pop _ => False
  | list _ => False
  | _ => True

section Run

variable {S : Type} [VertexSet S]

/-- The sets after an instruction, and its answer. A pop that fails leaves the sets as they are. -/
def step (sets : ℕ → S) : Instruction → (ℕ → S) × Answer
  | .empty target => (Function.update sets target VertexSet.empty, .done)
  | .withCapacity target capacity =>
    (Function.update sets target (VertexSet.withCapacity capacity), .done)
  | .ofList target vs => (Function.update sets target (VertexSet.ofList vs), .done)
  | .clone target source => (Function.update sets target (sets source), .done)
  | .insert name v =>
    let change := VertexSet.insert (sets name) v
    (Function.update sets name change.set, .flag change.changed)
  | .remove name v =>
    let change := VertexSet.remove (sets name) v
    (Function.update sets name change.set, .flag change.changed)
  | .pop name =>
    match VertexSet.pop (sets name) with
    | .error e => (sets, .popped (.error e))
    | .ok (v, s) => (Function.update sets name s, .popped (.ok v))
  | .intersection target left right =>
    (Function.update sets target (VertexSet.intersection (sets left) (sets right)), .done)
  | .difference target left right =>
    (Function.update sets target (VertexSet.difference (sets left) (sets right)), .done)
  | .list name => (sets, .vertices (VertexSet.toList (sets name)))
  | .size name => (sets, .number (VertexSet.size (sets name)))
  | .isEmpty name => (sets, .flag (VertexSet.isEmpty (sets name)))
  | .contains name v => (sets, .flag (VertexSet.contains (sets name) v))
  | .intersectionSize left right =>
    (sets, .number (VertexSet.intersectionSize (sets left) (sets right)))
  | .isDisjoint left right => (sets, .flag (VertexSet.isDisjoint (sets left) (sets right)))
  | .equal left right => (sets, .flag (VertexSet.equal (sets left) (sets right)))

def run (sets : ℕ → S) : List Instruction → (ℕ → S) × List Answer
  | [] => (sets, [])
  | i :: program =>
    let rest := run (step sets i).1 program
    (rest.1, (step sets i).2 :: rest.2)

/-- What a program does when it starts with empty sets under all names. -/
def runFresh (S : Type) [VertexSet S] (program : List Instruction) : (ℕ → S) × List Answer :=
  run (fun _ => VertexSet.empty) program

end Run

section Related

variable {S T : Type} {R : S → T → Prop}

def Related {α : Type} (R : S → T → Prop) (x : (ℕ → S) × α) (y : (ℕ → T) × α) : Prop :=
  (∀ name, R (x.1 name) (y.1 name)) ∧ x.2 = y.2

theorem related_update {α : Type} {sets : ℕ → S} {sets' : ℕ → T}
    (hsets : ∀ name, R (sets name) (sets' name)) (target : ℕ) {s : S} {t : T} (h : R s t) {a b : α}
    (hab : a = b) :
    Related R (Function.update sets target s, a) (Function.update sets' target t, b) := by
  refine ⟨fun name => ?_, hab⟩
  by_cases hname : name = target
  · simpa [hname] using h
  · simpa [hname] using hsets name

end Related

variable {S T : Type} [VertexSet S] [VertexSet T]

/-- Related sets stay related under the same changes, and give the same answers to questions in
which order plays no part. -/
structure Simulation (R : S → T → Prop) : Prop where
  empty : R empty empty
  insert : ∀ {s t}, R s t → ∀ v, R (insert s v).set (insert t v).set ∧
    (insert s v).changed = (insert t v).changed
  remove : ∀ {s t}, R s t → ∀ v, R (remove s v).set (remove t v).set ∧
    (remove s v).changed = (remove t v).changed
  intersection : ∀ {s t s' t'}, R s t → R s' t' → R (intersection s s') (intersection t t')
  difference : ∀ {s t s' t'}, R s t → R s' t' → R (difference s s') (difference t t')
  size : ∀ {s t}, R s t → size s = size t
  contains : ∀ {s t}, R s t → ∀ v, contains s v = contains t v
  intersectionSize : ∀ {s t s' t'}, R s t → R s' t' → intersectionSize s s' = intersectionSize t t'
  isDisjoint : ∀ {s t s' t'}, R s t → R s' t' → isDisjoint s s' = isDisjoint t t'
  equal : ∀ {s t s' t'}, R s t → R s' t' → equal s s' = equal t t'

/-- Related sets also list their members in the same order and pop the same one. -/
structure OrderedSimulation (R : S → T → Prop) : Prop extends Simulation R where
  toList : ∀ {s t}, R s t → toList s = toList t
  pop : ∀ {s t}, R s t →
    (∃ e, pop s = .error e ∧ pop t = .error e) ∨
      ∃ v s' t', pop s = .ok (v, s') ∧ pop t = .ok (v, t') ∧ R s' t'

variable {R : S → T → Prop} {sets : ℕ → S} {sets' : ℕ → T}

theorem Simulation.foldl_insert (h : Simulation R) (vs : List ℕ) {s : S} {t : T} (hst : R s t) :
    R (vs.foldl (fun s v => (VertexSet.insert s v).set) s)
      (vs.foldl (fun t v => (VertexSet.insert t v).set) t) := by
  induction vs generalizing s t with
  | nil => exact hst
  | cons v vs ih => exact ih (h.insert hst v).1

theorem Simulation.step (h : Simulation R) (hsets : ∀ name, R (sets name) (sets' name))
    {i : Instruction} (hi : i.IsOrderFree) :
    Related R (step sets i) (step sets' i) := by
  cases i with
  | empty target => exact related_update hsets target h.empty rfl
  | withCapacity target capacity => exact related_update hsets target h.empty rfl
  | ofList target vs => exact related_update hsets target (h.foldl_insert vs h.empty) rfl
  | clone target source => exact related_update hsets target (hsets source) rfl
  | insert name v =>
    obtain ⟨hset, hchanged⟩ := h.insert (hsets name) v
    exact related_update hsets name hset (congrArg Answer.flag hchanged)
  | remove name v =>
    obtain ⟨hset, hchanged⟩ := h.remove (hsets name) v
    exact related_update hsets name hset (congrArg Answer.flag hchanged)
  | pop name => exact hi.elim
  | intersection target left right =>
    exact related_update hsets target (h.intersection (hsets left) (hsets right)) rfl
  | difference target left right =>
    exact related_update hsets target (h.difference (hsets left) (hsets right)) rfl
  | list name => exact hi.elim
  | size name => exact ⟨hsets, congrArg Answer.number (h.size (hsets name))⟩
  | isEmpty name => exact ⟨hsets, congrArg (fun n => Answer.flag (n == 0)) (h.size (hsets name))⟩
  | contains name v => exact ⟨hsets, congrArg Answer.flag (h.contains (hsets name) v)⟩
  | intersectionSize left right =>
    exact ⟨hsets, congrArg Answer.number (h.intersectionSize (hsets left) (hsets right))⟩
  | isDisjoint left right =>
    exact ⟨hsets, congrArg Answer.flag (h.isDisjoint (hsets left) (hsets right))⟩
  | equal left right => exact ⟨hsets, congrArg Answer.flag (h.equal (hsets left) (hsets right))⟩

theorem OrderedSimulation.step (h : OrderedSimulation R)
    (hsets : ∀ name, R (sets name) (sets' name)) (i : Instruction) :
    Related R (step sets i) (step sets' i) := by
  by_cases hi : i.IsOrderFree
  · exact h.toSimulation.step hsets hi
  · cases i with
    | pop name =>
      rcases h.pop (hsets name) with ⟨e, hs, ht⟩ | ⟨v, s', t', hs, ht, hst⟩
      · simp only [SetProgram.step, hs, ht]
        exact ⟨hsets, rfl⟩
      · simp only [SetProgram.step, hs, ht]
        exact related_update hsets name hst rfl
    | list name => exact ⟨hsets, congrArg Answer.vertices (h.toList (hsets name))⟩
    | _ => exact absurd trivial hi

theorem related_run {program : List Instruction}
    (hstep : ∀ i ∈ program, ∀ {sets : ℕ → S} {sets' : ℕ → T},
      (∀ name, R (sets name) (sets' name)) → Related R (step sets i) (step sets' i))
    (hsets : ∀ name, R (sets name) (sets' name)) :
    Related R (run sets program) (run sets' program) := by
  induction program generalizing sets sets' with
  | nil => exact ⟨hsets, rfl⟩
  | cons i program ih =>
    obtain ⟨hnext, hanswer⟩ := hstep i List.mem_cons_self hsets
    obtain ⟨hfinal, hanswers⟩ := ih (fun j hj => hstep j (List.mem_cons_of_mem i hj)) hnext
    exact ⟨hfinal, congrArg₂ List.cons hanswer hanswers⟩

theorem Simulation.runFresh (h : Simulation R) {program : List Instruction}
    (hprogram : ∀ i ∈ program, i.IsOrderFree) :
    Related R (runFresh S program) (runFresh T program) :=
  related_run (fun i hi _ _ hsets => h.step hsets (hprogram i hi)) fun _ => h.empty

theorem OrderedSimulation.runFresh (h : OrderedSimulation R) (program : List Instruction) :
    Related R (runFresh S program) (runFresh T program) :=
  related_run (fun i _ _ _ hsets => h.step hsets i) fun _ => h.empty

end MaximalCliques.SetProgram

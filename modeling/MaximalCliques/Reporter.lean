import MaximalCliques.Basic

/-!
# Reporters

A reporter receives the cliques of a search one by one and keeps what it is interested in.
-/

namespace MaximalCliques

class Reporter (R : Type) where
  record : R → Clique → R

namespace Reporter

variable {R : Type} [Reporter R]

def recordAll (r : R) (cs : List Clique) : R := cs.foldl record r

end Reporter

structure CollectingReporter where
  cliques : Array Clique := #[]

instance : Reporter CollectingReporter where
  record r c := ⟨r.cliques.push c⟩

structure CountingReporter where
  count : Nat := 0

instance : Reporter CountingReporter where
  record r _ := ⟨r.count + 1⟩

/-- Passes every clique on into a queue, where a receiver finds them, oldest first. -/
structure ForwardingReporter where
  queue : Array Clique := #[]

instance : Reporter ForwardingReporter where
  record r c := ⟨r.queue.push c⟩

def ForwardingReporter.drain (r : ForwardingReporter) : List Clique × ForwardingReporter :=
  (r.queue.toList, {})

namespace Reporter

theorem toList_recordAll_collecting (r : CollectingReporter) (cs : List Clique) :
    (recordAll r cs).cliques.toList = r.cliques.toList ++ cs := by
  induction cs generalizing r with
  | nil => simp [recordAll]
  | cons c cs ih =>
    have := ih ⟨r.cliques.push c⟩
    simpa [recordAll, record] using this

theorem count_recordAll_counting (r : CountingReporter) (cs : List Clique) :
    (recordAll r cs).count = r.count + cs.length := by
  induction cs generalizing r with
  | nil => simp [recordAll]
  | cons c cs ih =>
    have := ih ⟨r.count + 1⟩
    simp only [recordAll, record, List.foldl_cons, List.length_cons] at this ⊢
    omega

end Reporter
end MaximalCliques

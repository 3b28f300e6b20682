import MaximalCliques.Graph

/-!
# Degeneracy order

The degeneracy order lists the vertices of positive degree, each time one that has the fewest
neighbours among those not listed yet. Vertices wait in buckets by that number, their priority. When
a neighbour leaves the queue, a vertex is entered again one bucket lower and its old entry is left
behind; an entry is live if it stands in the bucket of its vertex's priority, and only live entries
are picked. A bucket is a stack.
-/

namespace MaximalCliques

open VertexSet

structure DegeneracyQueue where
  /-- By vertex; none for a vertex that is isolated or has left. -/
  priorities : Array (Option Nat)
  /-- By priority, the latest entry first. -/
  buckets : Array (List Nat)
  /-- All buckets below this one are empty. -/
  lowest : Nat
  /-- The number of vertices still to come. -/
  remaining : Nat

namespace DegeneracyQueue

def priority (q : DegeneracyQueue) (v : Nat) : Option Nat := q.priorities.getD v none

def bucket (q : DegeneracyQueue) (p : Nat) : List Nat := q.buckets.getD p []

/-- Give `v` the priority `p` and an entry in that bucket. -/
def enter (q : DegeneracyQueue) (v p : Nat) : DegeneracyQueue :=
  { q with
    priorities := q.priorities.setIfInBounds v (some p)
    buckets := q.buckets.modify p (v :: ·)
    lowest := min q.lowest p }

def isLive (q : DegeneracyQueue) (p v : Nat) : Bool := q.priority v == some p

/-- Take the latest live entry of the lowest bucket that has one, looking at `n` buckets. The stale
entries passed on the way are dropped. -/
def pickFrom : Nat → DegeneracyQueue → Option (Nat × DegeneracyQueue)
  | 0, _ => none
  | n + 1, q =>
    match (q.bucket q.lowest).dropWhile fun v => !q.isLive q.lowest v with
    | v :: rest => some (v, { q with buckets := q.buckets.setIfInBounds q.lowest rest })
    | [] =>
      pickFrom n
        { q with buckets := q.buckets.setIfInBounds q.lowest [], lowest := q.lowest + 1 }

def pick? (q : DegeneracyQueue) : Option (Nat × DegeneracyQueue) :=
  q.pickFrom (q.buckets.size - q.lowest)

/-- A neighbour of `v` has left: a waiting `v` moves one bucket down. -/
def lower (q : DegeneracyQueue) (v : Nat) : DegeneracyQueue :=
  match q.priority v with
  | none => q
  | some p => q.enter v (p - 1)

variable {S : Type} [VertexSet S]

/-- Every vertex of positive degree waits in the bucket of its degree. -/
def start (g : Graph S) : DegeneracyQueue :=
  let waiting := g.vertices.filter fun v => 0 < g.degree v
  waiting.foldl (fun q v => q.enter v (g.degree v))
    { priorities := Array.replicate g.order none
      buckets := Array.replicate (g.maxDegree + 1) []
      lowest := 0
      remaining := waiting.length }

def next? (g : Graph S) (q : DegeneracyQueue) : Option (Nat × DegeneracyQueue) :=
  if q.remaining = 0 then none
  else
    match q.pick? with
    | none => none
    | some (v, q) =>
      let left :=
        { q with
          priorities := q.priorities.setIfInBounds v none
          remaining := q.remaining - 1 }
      some (v, (toList (g.neighbours v)).foldl lower left)

def take (g : Graph S) : Nat → DegeneracyQueue → List Nat
  | 0, _ => []
  | n + 1, q =>
    match next? g q with
    | none => []
    | some (v, q) => v :: take g n q

end DegeneracyQueue

namespace Graph

variable {S : Type} [VertexSet S]

def degeneracyOrder (g : Graph S) : List Nat :=
  let q := DegeneracyQueue.start g
  q.take g q.remaining

/-- The degeneracy order, cut after `count` vertices if a count is given. -/
def degeneracyOrdering (g : Graph S) : Option Nat → List Nat
  | none => g.degeneracyOrder
  | some count => (DegeneracyQueue.start g).take g count

end Graph
end MaximalCliques

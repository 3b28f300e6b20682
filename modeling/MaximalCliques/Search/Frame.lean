import MaximalCliques.Graph
import MaximalCliques.Search.Pivot

/-!
# Frames of the search

A frame holds the candidates that may extend the current clique and the excluded vertices, which
would extend it too but belong to branches done before. `Frame.steps` lists what a frame does, in
order: report the clique with one more vertex, or descend into the frame of such a vertex. A vertex
closes a clique when no excluded vertex is its neighbour.
-/

namespace MaximalCliques

open VertexSet

structure Frame (S : Type) where
  candidates : S
  excluded : S

/-- One thing that a frame does for its clique. -/
inductive Step (S : Type) where
  /-- The clique with this vertex is maximal. -/
  | report (vertex : Nat)
  /-- The clique with this vertex has extensions; search them. -/
  | descend (vertex : Nat) (frame : Frame S)

namespace Frame

variable {S : Type} [VertexSet S]

def localDegree (g : Graph S) (f : Frame S) (v : Nat) : Nat :=
  intersectionSize (g.neighbours v) f.candidates

def closes (g : Graph S) (f : Frame S) (v : Nat) : Bool := isDisjoint (g.neighbours v) f.excluded

/-- The frame of the cliques that continue with `v`. -/
def restrict (g : Graph S) (f : Frame S) (v : Nat) : Frame S :=
  ⟨intersection (g.neighbours v) f.candidates, intersection (g.neighbours v) f.excluded⟩

/-- Search the cliques that continue with `v`, which is no longer a candidate. -/
def branch (g : Graph S) (f : Frame S) (v : Nat) : List (Step S) :=
  let sub := f.restrict g v
  if isEmpty sub.candidates then if f.closes g v then [.report v] else [] else [.descend v sub]

/-- Branch on the listed candidates one after another, except for the neighbours of the pivot. A
vertex that was branched on is excluded for those after it. -/
def branches (g : Graph S) (pivot : Option Nat) : List Nat → Frame S → List (Step S)
  | [], _ => []
  | v :: vs, f =>
    if pivot.any fun p => contains (g.neighbours v) p then branches g pivot vs f
    else
      let rest := (remove f.candidates v).set
      branch g ⟨rest, f.excluded⟩ v ++ branches g pivot vs ⟨rest, (insert f.excluded v).set⟩

def reports (g : Graph S) (f : Frame S) (vs : List Nat) : List (Step S) :=
  (vs.filter (f.closes g)).map .report

def withLocalDegrees (g : Graph S) (f : Frame S) (vs : List Nat) : List (Nat × Nat) :=
  vs.map fun v => (v, f.localDegree g v)

/-- Report the candidates without neighbours among the candidates, then branch on the others. The
pivot is the first vertex of greatest local degree among these and `others`. -/
def localSteps (g : Graph S) (f : Frame S) (others : List Nat) : List (Step S) :=
  let scored := f.withLocalDegrees g (toList f.candidates)
  let isolated := (scored.filter fun (_, degree) => degree == 0).map Prod.fst
  let linked := scored.filter fun (_, degree) => degree != 0
  let pivot := (linked ++ f.withLocalDegrees g others).maxOn? Prod.snd
  f.reports g isolated ++ branches g (pivot.map Prod.fst) (linked.map Prod.fst) f

/-- The steps of any frame. Without a pivot choice every candidate is branched on; of several
candidates of greatest degree in the graph, the last one is the pivot. -/
def generalSteps (g : Graph S) (choice : Option PivotChoice) (f : Frame S) : List (Step S) :=
  match choice with
  | none => branches g none (toList f.candidates) f
  | some .global =>
    branches g ((toList f.candidates).reverse.maxOn? g.degree) (toList f.candidates) f
  | some .amongCandidates => f.localSteps g []
  | some .amongAll => f.localSteps g (toList f.excluded)

/-- The steps of a frame. A single candidate is reported or not; nothing else can follow. -/
def steps (g : Graph S) (choice : Option PivotChoice) (f : Frame S) : List (Step S) :=
  if size f.candidates = 1 then f.reports g (toList f.candidates) else f.generalSteps g choice

/-- The vertices whose neighbours the steps of a frame look up: the candidates and, where they may
become the pivot of linked candidates, the excluded vertices. -/
def lookups (g : Graph S) (choice : Option PivotChoice) (f : Frame S) : List Nat :=
  if choice = some .amongAll ∧ (toList f.candidates).any (f.localDegree g · != 0) then
    toList f.candidates ++ toList f.excluded
  else toList f.candidates

/-- Does the graph have all vertices that the frame looks up? The frames below it then have theirs,
since they hold nothing but neighbours of vertices of the graph. -/
def isWithin (g : Graph S) (choice : Option PivotChoice) (f : Frame S) : Bool :=
  (f.lookups g choice).all (· < g.order)

end Frame
end MaximalCliques

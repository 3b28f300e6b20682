import MaximalCliques.Graph
import MaximalCliques.Random.Words

/-!
# Random graphs

A random graph has exactly the requested number of edges. Pairs of vertices are drawn until enough
different edges are picked; beyond half of all possible edges, the picked ones are those to leave
out. Drawing has no bound in advance, so it takes fuel; no graph means that the fuel or the words ran
out before enough edges were picked.
-/

namespace MaximalCliques

variable {σ : Type}

def drawPair [WordSource σ] (order fuel : Nat) (source : σ) : Option (Edge × σ) :=
  match drawBelow order fuel source with
  | none => none
  | some (a, source) =>
    match drawBelow order fuel source with
    | none => none
    | some (b, source) => some ((a, b), source)

/-- Add the edge of a drawn pair to the picked edges, unless the pair is no edge or the edge is
picked already. -/
def pick (picked : List Edge) (pair : Edge) : List Edge :=
  if pair.1 = pair.2 then picked
  else
    let e := (max pair.1 pair.2, min pair.1 pair.2)
    if e ∈ picked then picked else picked ++ [e]

/-- Draw pairs until `target` edges are picked, at most `fuel` of them. -/
def pickEdges (draw : σ → Option (Edge × σ)) (target : Nat) :
    Nat → List Edge → σ → Option (List Edge × σ)
  | 0, picked, source => if target ≤ picked.length then some (picked, source) else none
  | fuel + 1, picked, source =>
    if target ≤ picked.length then some (picked, source)
    else
      match draw source with
      | none => none
      | some (pair, source) => pickEdges draw target fuel (pick picked pair) source

def mostEdges (order : Nat) : Nat := order * (order - 1) / 2

def allEdges (order : Nat) : List Edge :=
  (List.range order).flatMap fun a => (List.range a).map fun b => (a, b)

/-- Are the picked edges the ones to leave out? -/
def leavesOut (order size : Nat) : Bool := mostEdges order / 2 < size

def pickTarget (order size : Nat) : Nat :=
  if leavesOut order size then mostEdges order - size else size

/-- The edges of the graph for which these edges were picked. -/
def edgesOfPicked (order size : Nat) (picked : List Edge) : List Edge :=
  if leavesOut order size then (allEdges order).filter (· ∉ picked) else picked

namespace Graph

variable {S : Type} [VertexSet S] [LawfulVertexSet S]

/-- A random graph from a way to draw pairs. More edges than a complete graph has are an error, and
nothing is drawn. -/
def randomFrom (draw : σ → Option (Edge × σ)) (fuel order size : Nat) (source : σ) :
    Option (Except Error (Graph S) × σ) :=
  if mostEdges order < size then
    some (.error (.tooManyEdges order size (mostEdges order)), source)
  else
    match pickEdges draw (pickTarget order size) fuel [] source with
    | none => none
    | some (picked, source) => some (ofEdges order (edgesOfPicked order size picked), source)

def random [WordSource σ] (fuel order size : Nat) (source : σ) :
    Option (Except Error (Graph S) × σ) :=
  randomFrom (drawPair order fuel) fuel order size source

end Graph

/-- Fuel that no program lives to use up. -/
def ampleFuel : Nat := 0x4000000000000000

end MaximalCliques

import MaximalCliques.Graph
import MaximalCliques.Clique.Canonical
import MaximalCliques.Clique.SortedList

/-!
# Verification of reported cliques

`verify` looks for the first thing that is wrong with a list of cliques of a graph: one that is too
small, not complete or not maximal, then one that is listed twice, then one that another contains.
The vertices of a clique and the cliques may come in any order.
-/

namespace MaximalCliques

open VertexSet

inductive Violation where
  | tooSmall (clique : Clique)
  | notAClique (clique : Clique) (a b : Nat)
  | notMaximal (clique : Clique) (extension : Nat)
  | duplicate (clique : Clique)
  | contained (inner outer : Clique)
  deriving DecidableEq, Repr

def Clique.text (c : Clique) : String := "[" ++ ", ".intercalate (c.map fun v => toString v) ++ "]"

def Violation.message : Violation → String
  | tooSmall c => c.text ++ " has fewer than two vertices"
  | notAClique c a b => c.text ++ s!" is not a clique: {a} and {b} are not adjacent"
  | notMaximal c x => c.text ++ s!" is not maximal: {x} is adjacent to all of it"
  | duplicate c => c.text ++ " is reported twice"
  | contained inner outer => inner.text ++ " is contained in " ++ outer.text

/-- Why a list of cliques is not accepted. Apart from violations, these are lists that cannot be
examined. -/
inductive Rejection where
  | violation (v : Violation)
  /-- The neighbours of a vertex outside the graph were asked for. -/
  | unknownVertex (vertex : Nat)
  /-- A clique without a first vertex has no place in the index. -/
  | emptyClique
  deriving DecidableEq, Repr

namespace Clique

def pairs : Clique → List (Nat × Nat)
  | [] => []
  | v :: vs => vs.map (v, ·) ++ pairs vs

/-- For each vertex below `order`, the cliques that hold it, in the order of the list. -/
def index (cs : List Clique) (order : Nat) : Array (List Clique) :=
  cs.foldr (fun c table => c.foldl (fun table v => table.modify v (c :: ·)) table)
    (Array.replicate order [])

/-- Find a clique that is properly contained in another. The cliques are sorted, and their vertices
are below `order`. A clique that contains another holds the first vertex of it. -/
def checkContainment (cs : List Clique) (order : Nat) : Except Rejection Unit :=
  match cs.flatten.find? (order ≤ ·) with
  | some v => .error (.unknownVertex v)
  | none =>
    let table := index cs order
    cs.forM fun inner =>
      match inner with
      | [] => .error .emptyClique
      | v :: _ =>
        match (table.getD v []).find? fun outer =>
            inner.length < outer.length && SortedList.isSubset inner outer with
        | some outer => .error (.violation (.contained inner outer))
        | none => .ok ()

/-- The first clique of a sorted list that equals its successor. -/
def repeated? : List Clique → Option Clique
  | [] => none
  | c :: cs => if cs.head? = some c then some c else repeated? cs

end Clique

namespace Graph

variable {S : Type} [VertexSet S]

def sortedNeighbours (g : Graph S) (v : Nat) : List Nat :=
  (toList (g.neighbours v)).mergeSort fun a b => a ≤ b

def commonNeighbours (g : Graph S) : List Nat → List Nat
  | [] => []
  | v :: vs =>
    vs.foldl (fun common w => SortedList.intersection common (g.sortedNeighbours w))
      (g.sortedNeighbours v)

/-- Is `b` a neighbour of `a`, both in the sorted clique `c`? -/
def verifyPair (g : Graph S) (c : Clique) (a b : Nat) : Except Rejection Unit :=
  if g.order ≤ a then .error (.unknownVertex a)
  else if contains (g.neighbours a) b then .ok ()
  else .error (.violation (.notAClique c a b))

def verifyClique (g : Graph S) (c : Clique) : Except Rejection Unit := do
  if c.length < 2 then throw (.violation (.tooSmall c))
  c.pairs.forM fun (a, b) => g.verifyPair c a b
  match g.commonNeighbours c with
  | [] => pure ()
  | x :: _ => throw (.violation (.notMaximal c x))

/-- Check that the cliques are complete and maximal and that none repeats or contains another. -/
def verify (g : Graph S) (cs : List Clique) : Except Rejection Unit := do
  let sorted := cs.map Clique.sort
  sorted.forM g.verifyClique
  let ordered := Clique.sortList sorted
  match Clique.repeated? ordered with
  | some c => throw (.violation (.duplicate c))
  | none => Clique.checkContainment ordered g.order

end Graph
end MaximalCliques

import MaximalCliques.Algorithm.Basic
import MaximalCliques.Error

/-!
# Names of algorithms

A name is the kind of the algorithm, a hyphen and the abbreviation of the pivot choice, for parallel
algorithms followed by an at sign and the number of threads; the naive algorithm has its kind alone.
Reading splits at the first hyphen and the first at sign. There is no parallel algorithm without
threads.
-/

namespace MaximalCliques
namespace Algorithm

/-- The parts of a text before and after the first `mark`. -/
def splitFirst? (mark : Char) : List Char → Option (List Char × List Char)
  | [] => none
  | c :: cs =>
    if c = mark then some ([], cs)
    else (splitFirst? mark cs).map fun (before, after) => (c :: before, after)

def naiveName : List Char := ['n', 'a', 'i', 'v', 'e']

def pivotKind : List Char := ['p', 'i', 'v', 'o', 't']

def degeneracyKind : List Char := ['d', 'e', 'g', 'e', 'n']

def parallelKind : List Char := ['p', 'a', 'r', 'a', 'l', 'l', 'e', 'l']

def name : Algorithm → List Char
  | naive => naiveName
  | pivot p => pivotKind ++ '-' :: p.abbreviation
  | degeneracy p => degeneracyKind ++ '-' :: p.abbreviation
  | parallel p threads => parallelKind ++ '-' :: p.abbreviation ++ '@' :: Numeral.write threads

def parallel? (text : List Char) : Option Algorithm := do
  let (choice, threads) ← splitFirst? '@' text
  let choice ← PivotChoice.ofAbbreviation? choice
  match Numeral.read countBound threads with
  | .ok threads => if 0 < threads then some (parallel choice threads) else none
  | .error _ => none

def ofName? (text : List Char) : Option Algorithm :=
  if text = naiveName then some naive
  else
    match splitFirst? '-' text with
    | none => none
    | some (kind, rest) =>
      if kind = pivotKind then (PivotChoice.ofAbbreviation? rest).map pivot
      else if kind = degeneracyKind then (PivotChoice.ofAbbreviation? rest).map degeneracy
      else if kind = parallelKind then parallel? rest
      else none

def ofName (text : List Char) : Except Error Algorithm :=
  match ofName? text with
  | some a => .ok a
  | none => .error (.unknownAlgorithm text)

end Algorithm
end MaximalCliques

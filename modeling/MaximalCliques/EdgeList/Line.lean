import MaximalCliques.EdgeList.Blank
import MaximalCliques.Error

/-!
# Lines of an edge list

A line names the two vertices of an edge in its first two fields, or says nothing. A line that
starts with a number sign is a comment; a comment whose text starts with `order` is a header that
makes the graph at least as large as the numeral after it.
-/

namespace MaximalCliques
namespace EdgeList

inductive Line where
  | blank
  | header (order : Nat)
  | edge (v w : Nat)
  deriving DecidableEq, Repr

namespace Line

def headerWord : List Char := ['o', 'r', 'd', 'e', 'r']

def ofComment (text : List Char) : Except LineFault Line :=
  if headerWord <+: trim text then
    match Numeral.read countBound (trim ((trim text).drop headerWord.length)) with
    | .ok n => .ok (.header n)
    | .error fault => .error (.badOrder fault)
  else .ok .blank

def readVertex (field : List Char) : Except LineFault Nat :=
  match Numeral.read vertexBound field with
  | .ok v => .ok v
  | .error fault => .error (.badVertex field fault)

/-- Read the fields of a line; only the first two matter. -/
def ofFields : List (List Char) → Except LineFault Line
  | [] => .ok .blank
  | [_] => .error .missingVertex
  | v :: w :: _ => do
    let v ← readVertex v
    let w ← readVertex w
    return .edge v w

def read (text : List Char) : Except LineFault Line :=
  match trim text with
  | '#' :: comment => ofComment comment
  | text => ofFields (fields text)

/-- The least order of a graph that has what the line mentions. -/
def order : Line → Nat
  | blank => 0
  | header n => n
  | edge v w => max (v + 1) (w + 1)

def edge? : Line → Option Edge
  | edge v w => some (v, w)
  | _ => none

end Line
end EdgeList
end MaximalCliques

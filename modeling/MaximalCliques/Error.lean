import MaximalCliques.Basic
import MaximalCliques.Numeral

/-!
# What can go wrong

Every failure is a value that names its cause; `Error.message` holds the wording.
-/

namespace MaximalCliques

/-- Why a line of an edge list says nothing. -/
inductive LineFault where
  | badOrder (fault : Numeral.Fault)
  | missingVertex
  | badVertex (field : List Char) (fault : Numeral.Fault)
  deriving DecidableEq, Repr

def LineFault.message : LineFault → String
  | badOrder fault => "bad order: " ++ fault.message
  | missingVertex => "expected two vertices"
  | badVertex field fault => "bad vertex `" ++ String.ofList field ++ "`: " ++ fault.message

/-- Why a file or directory cannot be opened, read or made. -/
inductive FileFault where
  | missing
  | refused
  | alreadyExists
  | notADirectory
  | isDirectory
  | nameTooLong
  deriving DecidableEq, Repr

def FileFault.message : FileFault → String
  | missing => "No such file or directory (os error 2)"
  | refused => "Permission denied (os error 13)"
  | alreadyExists => "File exists (os error 17)"
  | notADirectory => "Not a directory (os error 20)"
  | isDirectory => "Is a directory (os error 21)"
  | nameTooLong => "File name too long (os error 36)"

inductive Error where
  | selfLoop (vertex : Nat)
  | asymmetric (source target : Nat)
  | outOfRange (vertex : Nat) (order : Nat)
  | oddDegreeSum (sum : Nat)
  | emptySet
  | noEdges
  | noWorkers
  | tooManyEdges (order size most : Nat)
  | unknownAlgorithm (name : List Char)
  | badLine (line : Nat) (fault : LineFault)
  | invalidText
  | file (fault : FileFault)
  | truncatedRecord
  /-- A binary record could be opened, but not read. -/
  | unreadableRecord (fault : FileFault)
  | noSamples
  | noGraph
  /-- An array would take more bytes than there are addresses. -/
  | capacityOverflow
  deriving DecidableEq, Repr

namespace Error

def message : Error → String
  | selfLoop v => s!"vertex {v} is adjacent to itself"
  | asymmetric v w => s!"vertex {v} lists {w} as neighbour, but {w} does not list {v}"
  | outOfRange v order => s!"vertex {v} is out of range for a graph of order {order}"
  | oddDegreeSum sum => s!"sum of degrees {sum} is odd"
  | emptySet => "cannot pick a vertex from an empty set"
  | noEdges => "graph has no edges"
  | noWorkers => "parallel search needs at least one worker thread"
  | tooManyEdges order size most =>
    s!"{order} vertices accommodate at most {most} edges, {size} requested"
  | unknownAlgorithm name => "unknown algorithm `" ++ String.ofList name ++ "`"
  | badLine line fault => s!"line {line}: " ++ fault.message
  | invalidText => "stream did not contain valid UTF-8"
  | file fault => fault.message
  | truncatedRecord => "io error: failed to fill whole buffer"
  | unreadableRecord fault => "io error: " ++ fault.message
  | noSamples => "need at least one sample"
  | noGraph => "no graph was drawn"
  | capacityOverflow => "capacity overflow"

/-- The exit status of a program that fails. Without an array that it asks for it is aborted. -/
def status : Error → UInt32
  | capacityOverflow => 101
  | _ => 1

end Error
end MaximalCliques

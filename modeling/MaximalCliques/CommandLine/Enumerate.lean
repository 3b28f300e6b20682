import MaximalCliques.Algorithm.Explore
import MaximalCliques.Algorithm.Name
import MaximalCliques.BinaryRecord
import MaximalCliques.Clique.Canonical
import MaximalCliques.CommandLine.Arguments
import MaximalCliques.CommandLine.FileStore
import MaximalCliques.CommandLine.Outcome
import MaximalCliques.CommandLine.Representation
import MaximalCliques.EdgeList

/-!
# Enumerating the cliques of a file

The program `cliques` reads a graph from a file and prints the number of its maximal cliques, or all
of them in canonical order. A file whose name ends in `.bin` holds a binary record, any other an edge
list.
-/

namespace MaximalCliques
namespace Enumerate

open CommandLine

structure Options where
  input : List Char
  algorithm : Algorithm
  representation : Representation
  print : Bool

def inputOption : OptionSpec := ⟨"input".toList, some 'i', .single⟩
def algorithmOption : OptionSpec := ⟨"algorithm".toList, some 'a', .single⟩
def setOption : OptionSpec := ⟨"set".toList, none, .single⟩
def printOption : OptionSpec := ⟨"print".toList, some 'p', .switch⟩

def optionSpecs : List OptionSpec := [inputOption, algorithmOption, setOption, printOption]

def Options.ofArguments? (arguments : List (List Char)) : Option Options := do
  let os ← readArguments optionSpecs arguments
  let input ← valueOf? inputOption os
  let algorithm ←
    match valueOf? algorithmOption os with
    | none => some (.degeneracy .amongAll)
    | some name => Algorithm.ofName? name
  let representation ←
    match valueOf? setOption os with
    | none => some .dense
    | some name => Representation.ofName? name
  return ⟨input, algorithm, representation, occurs printOption os⟩

def isRecordName (name : List Char) : Bool := ".bin".toList.isSuffixOf name

def cliqueLine (c : Clique) : List Char := [' '].intercalate (c.map Numeral.write)

section Output

variable {S : Type} [VertexSet S] [LawfulVertexSet S]

variable (S) in
/-- The graph of an input file. A directory can be opened like a file, but not read. -/
def readGraph (name : List Char) : Entry → Except Error (Graph S)
  | .directory _ =>
    .error (if isRecordName name then .unreadableRecord .isDirectory else .file .isDirectory)
  | .file bytes => if isRecordName name then Graph.ofRecord bytes else Graph.ofEdgeList bytes

def describe (schedule : Pool.Schedule) (algorithm : Algorithm) (print : Bool) (g : Graph S) :
    Except Error (List (List Char)) :=
  if print then
    let exploration := algorithm.explore schedule g ({} : CollectingReporter)
    exploration.outcome.map fun _ =>
      (Clique.canonical exploration.reporter.cliques.toList).map cliqueLine
  else
    let exploration := algorithm.explore schedule g ({} : CountingReporter)
    exploration.outcome.map fun _ => [Numeral.write exploration.reporter.count]

end Output

/-- The lines that the program prints, given what opening its input file gave. -/
def run (schedule : Pool.Schedule) (options : Options) (input : Except FileFault Entry) :
    Except Error (List (List Char)) := do
  let entry ← input.mapError .file
  let g ← readGraph options.representation.Carrier options.input entry
  describe schedule options.algorithm options.print g

def outcome (schedule : Pool.Schedule) (options : Options) (input : Except FileFault Entry) :
    Outcome :=
  .ofLines (run schedule options input)

end Enumerate
end MaximalCliques

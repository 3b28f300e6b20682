import MaximalCliques.Algorithm.Name
import MaximalCliques.CommandLine.Arguments
import MaximalCliques.CommandLine.Representation

/-!
# Options of a benchmark

How many vertices and edges the random graphs have, what is compared on them and how often, and which
files are kept.
-/

namespace MaximalCliques
namespace Benchmark

open CommandLine

structure Options where
  order : Nat
  sizes : List Nat
  samples : Nat
  /-- All algorithms of the comparison set if empty. -/
  algorithms : List Algorithm
  /-- The default pool sizes if empty. -/
  threads : List Nat
  seed : UInt64
  representation : Representation
  table : Option (List Char)
  directory : Option (List Char)

def orderOption : OptionSpec := ⟨"order".toList, some 'o', .single⟩
def sizesOption : OptionSpec := ⟨"sizes".toList, some 'n', .list⟩
def samplesOption : OptionSpec := ⟨"samples".toList, none, .single⟩
def algorithmsOption : OptionSpec := ⟨"algorithms".toList, some 'a', .list⟩
def threadsOption : OptionSpec := ⟨"threads".toList, some 't', .list⟩
def seedOption : OptionSpec := ⟨"seed".toList, none, .single⟩
def setOption : OptionSpec := ⟨"set".toList, none, .single⟩
def csvOption : OptionSpec := ⟨"csv".toList, none, .single⟩
def saveOption : OptionSpec := ⟨"save".toList, none, .single⟩

def optionSpecs : List OptionSpec :=
  [orderOption, sizesOption, samplesOption, algorithmsOption, threadsOption, seedOption, setOption,
    csvOption, saveOption]

def readCount? (bound : Nat) (text : List Char) : Option Nat :=
  match Numeral.read bound text with
  | .ok n => some n
  | .error _ => none

/-- The value of an option that may be missing. -/
def valueOr {α : Type} (default : α) (read : List Char → Option α) :
    Option (List Char) → Option α
  | none => some default
  | some text => read text

def Options.ofArguments? (arguments : List (List Char)) : Option Options := do
  let os ← readArguments optionSpecs arguments
  let order ← readCount? countBound (← valueOf? orderOption os)
  let sizes ← (valuesOf sizesOption os).mapM (readCount? countBound)
  if sizes.isEmpty then failure
  let samples ← valueOr 3 (readCount? vertexBound) (valueOf? samplesOption os)
  let algorithms ← (valuesOf algorithmsOption os).mapM Algorithm.ofName?
  let threads ← (valuesOf threadsOption os).mapM (readCount? countBound)
  let seed ← valueOr 19680516 (readCount? countBound) (valueOf? seedOption os)
  let representation ← valueOr .dense Representation.ofName? (valueOf? setOption os)
  return {
    order, sizes, samples, algorithms, threads, representation
    seed := UInt64.ofNat seed
    table := valueOf? csvOption os
    directory := valueOf? saveOption os }

def Options.compared (o : Options) : List Algorithm :=
  if o.algorithms.isEmpty then
    Algorithm.comparisonSet (if o.threads.isEmpty then Algorithm.defaultThreads else o.threads)
  else o.algorithms

end Benchmark
end MaximalCliques

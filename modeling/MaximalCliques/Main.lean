import MaximalCliques.Benchmark.Run
import MaximalCliques.CommandLine.Enumerate

/-!
# The command line

The first argument chooses the program, `cliques` or `bench`; the others are its options. The exit
status is 0 on success, 1 or 101 when the program fails and 2 when the arguments make no sense.
-/

namespace MaximalCliques
namespace CommandLine

/-- The fault that a failure of the operating system stands for, by its number. -/
def faultOf : IO.Error → FileFault
  | .noFileOrDirectory _ _ _ => .missing
  | .permissionDenied _ _ _ => .refused
  | .alreadyExists _ _ _ => .alreadyExists
  | .inappropriateType _ code _ => if code = 20 then .notADirectory else .isDirectory
  | .invalidArgument _ code _ => if code = 36 then .nameTooLong else .missing
  | .unsupportedOperation code _ => if code = 36 then .nameTooLong else .missing
  | .otherError code _ => if code = 36 then .nameTooLong else .missing
  | _ => .missing

def attempt {α : Type} (action : IO α) : ExceptT FileFault IO α :=
  ExceptT.mk do
    try
      return .ok (← action)
    catch e => return .error (faultOf e)

def attemptFile {α : Type} (action : IO α) : ExceptT Error IO α :=
  ExceptT.mk do return (← (attempt action).run).mapError .file

/-- Open a file, or find that it is a directory. -/
def openInput (name : List Char) : IO (Except FileFault Entry) := do
  match ← (attempt (IO.FS.readBinFile (String.ofList name))).run with
  | .ok bytes => return .ok (.file bytes.toList)
  | .error .isDirectory => return .ok (.directory [])
  | .error fault => return .error fault

/-- Print what a program leaves behind and give its exit status. -/
def finish (outcome : Outcome) : IO UInt32 := do
  IO.print (String.ofList outcome.output)
  if let some message := outcome.message then
    IO.eprintln ("Error: " ++ message)
  return outcome.status

def usage : IO UInt32 := do
  IO.eprintln
    ("usage: cliques -i FILE [-a NAME] [--set bit|index] [-p]\n" ++
      "       bench -o ORDER -n SIZE,.. [--samples N] [-a NAME,..] [-t THREADS,..] [--seed N]\n" ++
      "             [--set bit|index] [--csv FILE] [--save DIRECTORY]")
  return 2

def cliques (options : Enumerate.Options) : IO UInt32 := do
  finish (Enumerate.outcome .first options (← openInput options.input))

/-- The files, the output and the clock of the machine. -/
def machine : Benchmark.Host IO IO.FS.Handle where
  makeDirectories name := attemptFile (IO.FS.createDirAll (String.ofList name))
  write name bytes := attemptFile (IO.FS.writeBinFile (String.ofList name) ⟨bytes.toArray⟩)
  create name := attemptFile (IO.FS.Handle.mk (String.ofList name) .write)
  writeTo file bytes := attemptFile do
    file.write ⟨bytes.toArray⟩
    file.flush
    return file
  print row := attemptFile (IO.println (String.ofList row.text))
  warn message := attemptFile (IO.eprintln message)
  time value := attemptFile do
    let start ← IO.monoNanosNow
    let result ← IO.lazyPure value
    let stop ← IO.monoNanosNow
    return (result, (stop - start).toFloat / 1000000000)

/-- The benchmark prints its lines as it goes. -/
def bench (options : Benchmark.Options) : IO UInt32 := do
  let result ← (Benchmark.run machine .first options).run
  finish (.ofLines (result.map fun () => []))

end CommandLine
end MaximalCliques

open MaximalCliques

def main (arguments : List String) : IO UInt32 :=
  match arguments with
  | "cliques" :: rest =>
    match Enumerate.Options.ofArguments? (rest.map String.toList) with
    | some options => CommandLine.cliques options
    | none => CommandLine.usage
  | "bench" :: rest =>
    match Benchmark.Options.ofArguments? (rest.map String.toList) with
    | some options => CommandLine.bench options
    | none => CommandLine.usage
  | _ => CommandLine.usage

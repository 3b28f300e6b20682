/-!
# Command-line arguments

Options have a long name, written after two hyphens, and may have a letter, written after one. An
option that takes a value finds it attached (after an equals sign, or right after its letter) or in
the next argument, unless that looks like an option itself. Letters of options without a value may
be joined. There are no arguments besides options. An option that may occur any number of times may
lack its value in some places, as long as it has one in another.
-/

namespace MaximalCliques
namespace CommandLine

/-- How often an option may occur and whether it takes a value. -/
inductive Arity where
  /-- At most once, without a value. -/
  | switch
  /-- At most once, with a value. -/
  | single
  /-- Any number of times, with values separated by commas. -/
  | list
  deriving DecidableEq, Repr

structure OptionSpec where
  name : List Char
  letter : Option Char
  arity : Arity
  deriving DecidableEq, Repr

structure Occurrence where
  option : OptionSpec
  value : Option (List Char)
  deriving DecidableEq, Repr

/-- Does an argument look like an option? A hyphen alone does not. -/
def isOption : List Char → Bool
  | '-' :: _ :: _ => true
  | _ => false

/-- The part after one leading equals sign, or all of it. -/
def attachedValue : List Char → List Char
  | '=' :: value => value
  | value => value

/-- Read joined letters: the options that are complete, and one that still needs its value. -/
def readLetters (specs : List OptionSpec) :
    List Char → Option (List Occurrence × Option OptionSpec)
  | [] => some ([], none)
  | c :: cs =>
    match specs.find? fun spec => spec.letter == some c with
    | none => none
    | some spec =>
      if spec.arity = .switch then
        (readLetters specs cs).map fun (os, waiting) => (⟨spec, none⟩ :: os, waiting)
      else if cs.isEmpty then some ([], some spec)
      else some ([⟨spec, some (attachedValue cs)⟩], none)

/-- Read the text after the two hyphens of a long option: a complete option, or one that still needs
its value. -/
def readLong (specs : List OptionSpec) (text : List Char) :
    Option (List Occurrence × Option OptionSpec) :=
  let name := text.takeWhile (· != '=')
  let attached := text.dropWhile (· != '=')
  match specs.find? fun spec => spec.name == name with
  | none => none
  | some spec =>
    if spec.arity = .switch then if attached.isEmpty then some ([⟨spec, none⟩], none) else none
    else if attached.isEmpty then some ([], some spec)
    else some ([⟨spec, some (attachedValue attached)⟩], none)

def readArgument (specs : List OptionSpec) :
    List Char → Option (List Occurrence × Option OptionSpec)
  | '-' :: '-' :: text => readLong specs text
  | '-' :: c :: text => readLetters specs (c :: text)
  | _ => none

/-- The occurrence of an option that has waited for its value in vain. -/
def unanswered (waiting : Option OptionSpec) : List Occurrence :=
  waiting.toList.map fun spec => ⟨spec, none⟩

/-- Read all arguments; `waiting` is an option that takes the next one as its value unless that looks
like an option. Two hyphens alone end the options, and nothing may follow them. -/
def readFrom (specs : List OptionSpec) :
    Option OptionSpec → List (List Char) → Option (List Occurrence)
  | waiting, [] => some (unanswered waiting)
  | waiting, argument :: rest =>
    if argument = ['-', '-'] then if rest.isEmpty then some (unanswered waiting) else none
    else if isOption argument then
      match readArgument specs argument with
      | none => none
      | some (os, next) => (readFrom specs next rest).map (unanswered waiting ++ os ++ ·)
    else
      match waiting with
      | none => none
      | some spec => (readFrom specs none rest).map (⟨spec, some argument⟩ :: ·)

/-- May the option stand in the arguments as it does? If it takes values it needs one, and it occurs
at most once unless it is a list. -/
def isComplete (os : List Occurrence) (spec : OptionSpec) : Bool :=
  let own := os.filter fun o => o.option = spec
  match spec.arity with
  | .switch => own.length ≤ 1
  | .single => own.length ≤ 1 && own.all fun o => o.value.isSome
  | .list => own.isEmpty || own.any fun o => o.value.isSome

/-- The occurrences of options, if the arguments have no others and every option is complete. -/
def readArguments (specs : List OptionSpec) (arguments : List (List Char)) :
    Option (List Occurrence) :=
  match readFrom specs none arguments with
  | none => none
  | some os => if specs.all (isComplete os) then some os else none

def occurs (spec : OptionSpec) (os : List Occurrence) : Bool := os.any fun o => o.option = spec

/-- The values with which an option occurs, those of a list separated by commas. -/
def valuesOf (spec : OptionSpec) (os : List Occurrence) : List (List Char) :=
  let values := os.filterMap fun o => if o.option = spec then o.value else none
  match spec.arity with
  | .list => values.flatMap (·.splitOn ',')
  | _ => values

def valueOf? (spec : OptionSpec) (os : List Occurrence) : Option (List Char) :=
  (valuesOf spec os).head?

end CommandLine
end MaximalCliques

/-!
# Names of paths

A path name is walked component by component, from the root if it starts with a slash and from the
working directory if not. Repeated slashes count as one. A component that is a single dot stays where
it is, two dots lead back. Names have at most 255 bytes, path names fewer than 4096.
-/

namespace MaximalCliques

def byteLength (text : List Char) : Nat := (String.ofList text).utf8ByteSize

/-- A path name that is not empty. -/
structure PathName where
  /-- Does the walk start at the root? -/
  absolute : Bool
  /-- The components, dots among them. -/
  parts : List (List Char)
  /-- Does a slash follow the last component? -/
  slashed : Bool
  deriving DecidableEq, Repr

namespace PathName

/-- A component of more bytes is no name of a file. -/
def longestName : Nat := 255

/-- A path name of more bytes cannot be walked. -/
def longestPath : Nat := 4095

def here : List Char := ['.']

def back : List Char := ['.', '.']

def ofText (text : List Char) : PathName where
  absolute := text.head? == some '/'
  parts := (text.splitOn '/').filter (!·.isEmpty)
  slashed := text.getLast? == some '/'

/-- The components without single dots, except for one at the beginning. -/
def steps (p : PathName) : List (List Char) :=
  match p.parts with
  | [] => []
  | part :: parts =>
    let rest := parts.filter (· != here)
    if part == here && p.absolute then rest else part :: rest

end PathName
end MaximalCliques

import MaximalCliques.CommandLine.OpenFile
import MaximalCliques.CommandLine.PathName
import MaximalCliques.Error

/-!
# A store of files

All files and directories of a machine, as a tree. Operations take path names and walk them: all
components but the last have to lead from directory to directory, and what the last one may be
depends on the operation. The working directory stands below the root under a name that no path name
can spell.
-/

namespace MaximalCliques

structure FileStore where
  /-- The root directory. -/
  root : Entry

namespace FileStore

def home : Path := [[]]

/-- A store with an empty working directory and the null device, an empty file. -/
def empty : FileStore where
  root := .directory
    [([], .directory []), ("dev".toList, .directory [("null".toList, .file [])])]

def lookUp (s : FileStore) (path : Path) (name : List Char) : Except FileFault (Option Entry) :=
  if PathName.longestName < byteLength name then .error .nameTooLong
  else .ok (s.root.get? (path ++ [name]))

def put (s : FileStore) (path : Path) (name : List Char) (e : Entry) : FileStore :=
  ⟨Entry.put e (path ++ [name]) s.root⟩

/-- Go on from a directory to another one. -/
def enter (s : FileStore) (path : Path) (part : List Char) : Except FileFault Path :=
  if part = PathName.here then .ok path
  else if part = PathName.back then .ok path.dropLast
  else
    match s.lookUp path part with
    | .error fault => .error fault
    | .ok none => .error .missing
    | .ok (some (.file _)) => .error .notADirectory
    | .ok (some (.directory _)) => .ok (path ++ [part])

def start (p : PathName) : Path := if p.absolute then [] else home

/-- Where a walk ends. -/
inductive Destination where
  /-- At a directory that was there before, since the last component is made of dots or there is no
  component at all. -/
  | directory (path : Path)
  /-- At a name in a directory, which may be that of an entry or not. -/
  | name (path : Path) (name : List Char)

def walk (s : FileStore) (p : PathName) : Except FileFault Destination :=
  match p.parts.getLast? with
  | none => .ok (.directory (start p))
  | some last => do
    let path ← p.parts.dropLast.foldlM s.enter (start p)
    if last = PathName.here then return .directory path
    if last = PathName.back then return .directory path.dropLast
    return .name path last

/-- The path name that a text spells, which is neither empty nor too long. -/
def pathName (text : List Char) : Except FileFault PathName :=
  if text.isEmpty then .error .missing
  else if PathName.longestPath < byteLength text then .error .nameTooLong
  else .ok (PathName.ofText text)

/-- What is at the end of a walk. No slash may follow the name of a file. -/
def find (s : FileStore) (p : PathName) : Except FileFault Entry := do
  match ← s.walk p with
  | .directory path => return (s.root.get? path).getD (.directory [])
  | .name path last =>
    match ← s.lookUp path last with
    | none => throw .missing
    | some (.directory entries) => return .directory entries
    | some (.file bytes) => if p.slashed then throw .notADirectory else return .file bytes

def openEntry (s : FileStore) (text : List Char) : Except FileFault Entry := do
  s.find (← pathName text)

/-- The place of a file to be made, or to be written anew: its directory and its name there. A name
that a slash follows is taken for a directory, whether there is one or not. -/
def filePlace (s : FileStore) (text : List Char) : Except FileFault (Path × List Char) := do
  let p ← pathName text
  match ← s.walk p with
  | .directory _ => throw .isDirectory
  | .name path last =>
    if p.slashed then throw .isDirectory
    match ← s.lookUp path last with
    | some (.directory _) => throw .isDirectory
    | _ => return (path, last)

def write (s : FileStore) (text : List Char) (bytes : List UInt8) : Except FileFault FileStore := do
  let (path, last) ← s.filePlace text
  return s.put path last (.file bytes)

/-- Make an empty file, or empty the one that there is, and keep it open. -/
def create (s : FileStore) (text : List Char) : Except FileFault (FileStore × OpenFile) := do
  let (path, last) ← s.filePlace text
  return (s.put path last (.file []), ⟨path ++ [last], 0⟩)

/-- Write bytes to an open file from its position on, whatever else has been written to the file. -/
def writeTo (s : FileStore) (f : OpenFile) (bytes : List UInt8) : FileStore × OpenFile :=
  let next : OpenFile := ⟨f.path, f.position + bytes.length⟩
  match s.root.get? f.path with
  | some (.file contents) =>
    (⟨Entry.put (.file (overwrite f.position bytes contents)) f.path s.root⟩, next)
  | _ => (s, next)

def makeDirectory (s : FileStore) (p : PathName) : Except FileFault FileStore := do
  match ← s.walk p with
  | .directory _ => throw .alreadyExists
  | .name path last =>
    match ← s.lookUp path last with
    | some _ => throw .alreadyExists
    | none => return s.put path last (.directory [])

/-- Make a directory; one that exists already will do as well. -/
def ensureDirectory (s : FileStore) (p : PathName) : Except FileFault FileStore :=
  match s.makeDirectory p with
  | .ok t => .ok t
  | .error fault =>
    match s.find p with
    | .ok (.directory _) => .ok s
    | _ => .error fault

/-- Go on from a directory to another one, which is made if it is missing. -/
def enterOrMake (place : FileStore × Path) (part : List Char) :
    Except FileFault (FileStore × Path) :=
  let (s, path) := place
  if part = PathName.here then .ok (s, path)
  else if part = PathName.back then .ok (s, path.dropLast)
  else
    match s.lookUp path part with
    | .error fault => .error fault
    | .ok none => .ok (s.put path part (.directory []), path ++ [part])
    | .ok (some (.file _)) => .error .alreadyExists
    | .ok (some (.directory _)) => .ok (s, path ++ [part])

/-- Make the directories that lead to a path, as far as they are missing. -/
def makeOuter (s : FileStore) (p : PathName) : Except FileFault FileStore := do
  return (← p.steps.dropLast.foldlM enterOrMake (s, start p)).1

/-- Make a directory. Only if something is missing on the way there, the directories that lead to it
are made before. The empty name asks for nothing. -/
def makeDirectories (s : FileStore) (text : List Char) : Except FileFault FileStore :=
  if text.isEmpty then .ok s
  else do
    let p ← pathName text
    match s.makeDirectory p with
    | .error .missing => (← s.makeOuter p).ensureDirectory p
    | _ => s.ensureDirectory p

/-- A store whose working directory holds the given files, in the directories that their names ask
for. -/
def ofFiles (files : List (List Char × List UInt8)) : FileStore :=
  files.foldl
    (fun s (text, bytes) =>
      match do (← s.makeOuter (PathName.ofText text)).write text bytes with
      | .ok s => s
      | .error _ => s)
    empty

/-- The files below the working directory, with their paths from there. -/
def listing (s : FileStore) : List (Path × List UInt8) :=
  ((s.root.get? home).map Entry.files).getD []

end FileStore
end MaximalCliques

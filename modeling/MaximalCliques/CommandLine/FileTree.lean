/-!
# Trees of files

A directory holds named entries, which are files or directories again. A path lists the names that
lead from a directory to an entry below it.
-/

namespace MaximalCliques

abbrev Path := List (List Char)

def Path.text (path : Path) : List Char := ['/'].intercalate path

inductive Entry where
  | file (bytes : List UInt8)
  | directory (entries : List (List Char × Entry))

namespace Entry

def named? (name : List Char) : List (List Char × Entry) → Option Entry
  | [] => none
  | (n, e) :: entries => if n = name then some e else named? name entries

/-- Give a name the entry `e`, in place of the one that it has. -/
def setEntry (name : List Char) (e : Entry) : List (List Char × Entry) → List (List Char × Entry)
  | [] => [(name, e)]
  | (n, old) :: entries => if n = name then (n, e) :: entries else (n, old) :: setEntry name e entries

def get? : Path → Entry → Option Entry
  | [], e => some e
  | _ :: _, file _ => none
  | name :: path, directory entries => (named? name entries).bind (get? path)

/-- Put a new entry at a path. The path must not lead through files, and directories that it names
are made where they are missing. -/
def put (new : Entry) : Path → Entry → Entry
  | [], _ => new
  | _ :: _, file bytes => file bytes
  | name :: path, directory entries =>
    directory (setEntry name (put new path ((named? name entries).getD (directory []))) entries)

mutual

def files : Entry → List (Path × List UInt8)
  | file bytes => [([], bytes)]
  | directory entries => filesOf entries

def filesOf : List (List Char × Entry) → List (Path × List UInt8)
  | [] => []
  | (name, e) :: entries =>
    ((files e).map fun (path, bytes) => (name :: path, bytes)) ++ filesOf entries

end

theorem named?_setEntry (name other : List Char) (e : Entry)
    (entries : List (List Char × Entry)) :
    named? other (setEntry name e entries) = if name = other then some e else named? other entries := by
  induction entries with
  | nil => rfl
  | cons entry entries ih => grind [setEntry, named?]

/-- A new entry is found where it was put, if the way there only leads through directories. -/
theorem get?_put_self (new : Entry) (path : Path) (name : List Char) (e : Entry)
    {entries : List (List Char × Entry)} (h : get? path e = some (directory entries)) :
    get? (path ++ [name]) (put new (path ++ [name]) e) = some new := by
  induction path generalizing e with
  | nil =>
    obtain rfl : e = directory entries := by simpa [get?] using h
    simp [get?, put, named?_setEntry]
  | cons n path ih =>
    cases e with
    | file bytes => simp [get?] at h
    | directory es =>
      simp only [get?] at h
      cases hl : named? n es with
      | none => simp [hl] at h
      | some sub =>
        simp only [hl, Option.bind_some] at h
        simp only [List.cons_append, put, get?, named?_setEntry, if_true, Option.bind_some, hl,
          Option.getD_some]
        exact ih sub h

end Entry
end MaximalCliques

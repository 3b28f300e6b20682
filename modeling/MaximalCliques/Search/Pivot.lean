/-!
# Choice of a pivot

The neighbours of a pivot need no branch of their own. The choices differ in which vertex becomes
the pivot of a frame; each has an abbreviation that stands in the names of algorithms.
-/

namespace MaximalCliques

inductive PivotChoice where
  /-- The candidate of greatest degree in the graph. -/
  | global
  /-- The candidate with most neighbours among the candidates. -/
  | amongCandidates
  /-- The candidate or excluded vertex with most neighbours among the candidates. -/
  | amongAll
  deriving DecidableEq, Repr

namespace PivotChoice

def all : List PivotChoice := [global, amongCandidates, amongAll]

def abbreviation : PivotChoice → List Char
  | global => ['g', 'g']
  | amongCandidates => ['g', 'p']
  | amongAll => ['g', 'p', 'x']

def ofAbbreviation? (name : List Char) : Option PivotChoice :=
  all.find? fun p => p.abbreviation == name

theorem ofAbbreviation?_abbreviation (p : PivotChoice) :
    ofAbbreviation? p.abbreviation = some p := by
  cases p <;> decide

theorem ofAbbreviation?_eq_some_iff (name : List Char) (p : PivotChoice) :
    ofAbbreviation? name = some p ↔ name = p.abbreviation := by
  constructor
  · intro h
    have := List.find?_some h
    exact (by simpa using this : p.abbreviation = name).symm
  · rintro rfl
    exact ofAbbreviation?_abbreviation p

end PivotChoice
end MaximalCliques

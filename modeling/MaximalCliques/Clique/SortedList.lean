/-!
# Sorted lists as sets

Both functions walk two non-decreasing lists once, side by side. Repeated elements count as often as
they occur.
-/

namespace MaximalCliques
namespace SortedList

variable {α : Type} [Ord α]

def intersection : List α → List α → List α
  | [], _ => []
  | _, [] => []
  | a :: as, b :: bs =>
    match compare a b with
    | .eq => a :: intersection as bs
    | .lt => intersection as (b :: bs)
    | .gt => intersection (a :: as) bs
termination_by as bs => as.length + bs.length

/-- Does the second sorted list hold all elements of the first? -/
def isSubset : List α → List α → Bool
  | [], _ => true
  | a :: as, bs =>
    match bs.dropWhile fun b => (compare b a).isLT with
    | [] => false
    | b :: bs => (compare b a).isEq && isSubset as bs

end SortedList
end MaximalCliques

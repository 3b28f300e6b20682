import MaximalCliques.Basic

/-!
# Canonical order of cliques

Searches report in different orders. Sorting the vertices of each clique and then the cliques, by
their first vertex, then their second and so on, makes their results comparable.
-/

namespace MaximalCliques

def Clique.sort (c : Clique) : Clique := c.mergeSort fun a b => a ≤ b

/-- Does the first clique come before the second, or equal it, in lexicographic order? -/
def Clique.precedes : Clique → Clique → Bool
  | [], _ => true
  | _ :: _, [] => false
  | a :: as, b :: bs => if a = b then precedes as bs else a < b

def Clique.sortList (cs : List Clique) : List Clique := cs.mergeSort precedes

def Clique.canonical (cs : List Clique) : List Clique := sortList (cs.map sort)

end MaximalCliques

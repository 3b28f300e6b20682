/-!
# Vertices, edges and cliques

Vertices are natural numbers. Limits matter where graphs meet files and command lines: a vertex id
that is read or stored takes 32 bits, an order or a count takes 64, and some counts that can be read
are those of arrays that no machine can have. Memory is taken to suffice for all other arrays.
-/

namespace MaximalCliques

/-- An unordered pair of vertices; listings of a graph put the higher one first. -/
abbrev Edge := Nat × Nat

/-- The vertices of a clique in the order in which a search chose them. -/
abbrev Clique := List Nat

/-- Vertex ids in files are below this bound. -/
def vertexBound : Nat := 0x100000000

/-- Orders, counts and seeds in files and on command lines are below this bound. -/
def countBound : Nat := 0x10000000000000000

/-- Arrays take fewer bytes than this. -/
def byteBound : Nat := 0x8000000000000000

def total : List Nat → Nat
  | [] => 0
  | n :: ns => n + total ns

theorem total_append (ms ns : List Nat) : total (ms ++ ns) = total ms + total ns := by
  induction ms with
  | nil => simp [total]
  | cons m ms ih => simp only [List.cons_append, total, ih, Nat.add_assoc]

end MaximalCliques

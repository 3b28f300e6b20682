/-!
# Blank characters

A character is blank when it has the Unicode property `White_Space`. Blanks separate the fields of
a line and do not count at its ends.
-/

namespace MaximalCliques
namespace EdgeList

/-- The ranges of `White_Space`, first and last code point. -/
def blankRanges : List (Nat × Nat) :=
  [(0x9, 0xD), (0x20, 0x20), (0x85, 0x85), (0xA0, 0xA0), (0x1680, 0x1680), (0x2000, 0x200A),
    (0x2028, 0x2029), (0x202F, 0x202F), (0x205F, 0x205F), (0x3000, 0x3000)]

def isBlank (c : Char) : Bool :=
  blankRanges.any fun (first, last) => first ≤ c.toNat && c.toNat ≤ last

def trim (cs : List Char) : List Char := ((cs.dropWhile isBlank).reverse.dropWhile isBlank).reverse

def fields (cs : List Char) : List (List Char) := (cs.splitOnP isBlank).filter fun f => !f.isEmpty

end EdgeList
end MaximalCliques

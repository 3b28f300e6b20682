import MaximalCliques.Error

/-!
# How a program ends

What a program leaves behind for whoever has called it: an exit status, its output, and a message if
it fails. Lines are printed only when nothing can fail any more.
-/

namespace MaximalCliques

structure Outcome where
  status : UInt32
  output : List Char
  message : Option String
  deriving DecidableEq, Repr

/-- The outcome of a program that prints these lines, or fails. -/
def Outcome.ofLines : Except Error (List (List Char)) → Outcome
  | .ok lines => ⟨0, lines.flatMap (· ++ ['\n']), none⟩
  | .error e => ⟨e.status, [], some e.message⟩

end MaximalCliques

/-!
# Unsigned decimal numerals

A numeral is an optional plus sign and at least one ASCII digit; leading zeros are allowed. Reading
goes from left to right and reports the first thing that is wrong: a character that is no digit, or
a digit that takes the value to the bound.
-/

namespace MaximalCliques
namespace Numeral

inductive Fault where
  | empty
  | invalidDigit
  | tooLarge
  deriving DecidableEq, Repr

def Fault.message : Fault → String
  | empty => "cannot parse integer from empty string"
  | invalidDigit => "invalid digit found in string"
  | tooLarge => "number too large to fit in target type"

def digit? (c : Char) : Option Nat :=
  if '0'.toNat ≤ c.toNat ∧ c.toNat ≤ '9'.toNat then some (c.toNat - '0'.toNat) else none

/-- Append one digit to a value that has to stay below `bound`. -/
def appendDigit (bound value : Nat) (c : Char) : Except Fault Nat :=
  match digit? c with
  | none => .error .invalidDigit
  | some d => if value * 10 + d < bound then .ok (value * 10 + d) else .error .tooLarge

def readDigits (bound : Nat) (cs : List Char) : Except Fault Nat :=
  cs.foldlM (appendDigit bound) 0

/-- Read a numeral whose value is below `bound`. A sign without digits is an invalid digit. -/
def read (bound : Nat) : List Char → Except Fault Nat
  | [] => .error .empty
  | ['+'] => .error .invalidDigit
  | '+' :: cs => readDigits bound cs
  | cs => readDigits bound cs

/-- The numeral without sign and leading zeros. -/
def write (n : Nat) : List Char := Nat.toDigits 10 n

end Numeral
end MaximalCliques

import MaximalCliques.Algorithm.Name
import MaximalCliques.Statistics

/-!
# Rows of a benchmark

A row tells how long one algorithm took on one random graph. It is printed as a label and the
average with its relative deviation; a table for spreadsheets has the extremes and the average.
-/

namespace MaximalCliques
namespace Benchmark

structure Row where
  order : Nat
  size : Nat
  algorithm : Algorithm
  times : SampleStatistics Float

def padLeft (width : Nat) (text : List Char) : List Char :=
  List.replicate (width - text.length) ' ' ++ text

def padRight (width : Nat) (text : List Char) : List Char :=
  text ++ List.replicate (width - text.length) ' '

/-- A number that is not negative, with a fixed number of decimals. -/
def fixed (decimals : Nat) (x : Float) : List Char :=
  if x.isNaN then ['N', 'a', 'N']
  else if x.isInf then ['i', 'n', 'f']
  else
    let scaled := (x * (Nat.pow 10 decimals).toFloat).round.toUInt64.toNat
    let whole := Numeral.write (scaled / Nat.pow 10 decimals)
    if decimals = 0 then whole
    else
      let digits := Numeral.write (scaled % Nat.pow 10 decimals)
      whole ++ '.' :: (List.replicate (decimals - digits.length) '0' ++ digits)

/-- The average, as a number even when there is none. -/
def average (times : SampleStatistics Float) : Float :=
  match times.mean with
  | .ok (some x) => x
  | _ => 0.0 / 0.0

def Row.label (r : Row) : List Char :=
  "order ".toList ++ padLeft 6 (Numeral.write r.order) ++ " size ".toList ++
    padLeft 8 (Numeral.write r.size) ++ ' ' :: padRight 16 r.algorithm.name

def Row.text (r : Row) : List Char :=
  let mean := average r.times
  let deviation := (r.times.deviation Float.sqrt).getD (0.0 / 0.0)
  r.label ++ ' ' :: padLeft 8 (fixed 3 mean) ++ "s ± ".toList ++
    fixed 0 (100.0 * (deviation / mean)) ++ ['%']

def tableLine (cells : List (List Char)) : List Char := [','].intercalate cells ++ ['\n']

def tableHeader (algorithms : List Algorithm) : List Char :=
  tableLine ("Size".toList :: algorithms.flatMap fun a =>
    [" min", " mean", " max"].map fun column => a.name ++ column.toList)

def tableRow (size : Nat) (rows : List Row) : List Char :=
  tableLine (Numeral.write size :: rows.flatMap fun r =>
    [r.times.least, average r.times, r.times.most].map (fixed 9))

end Benchmark
end MaximalCliques

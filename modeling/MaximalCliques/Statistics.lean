/-!
# Statistics of samples

The statistics of a sequence of samples are collected in one pass: the extremes, the number, the sum
and the sum of squares. The arithmetic is a parameter: samples of time are floating-point numbers,
and the same definitions over the rationals say what the results mean without rounding. The number of
samples is a natural number, so it does not overflow either.
-/

namespace MaximalCliques

structure SampleStatistics (α : Type) where
  most : α
  least : α
  samples : Nat
  sum : α
  sumOfSquares : α
  deriving Repr

namespace SampleStatistics

variable {α : Type}

def empty [OfNat α 0] : SampleStatistics α := ⟨0, 0, 0, 0, 0⟩

def isEmpty (s : SampleStatistics α) : Bool := s.samples == 0

section Put

variable [Add α] [Mul α] [LT α] [DecidableLT α]

def put (s : SampleStatistics α) (x : α) : SampleStatistics α where
  least := if s.isEmpty then x else if x < s.least then x else s.least
  most :=
    if s.isEmpty then x
    else if x < s.least then s.most
    else if s.most < x then x
    else s.most
  samples := s.samples + 1
  sum := s.sum + x
  sumOfSquares := s.sumOfSquares + x * x

def ofList [OfNat α 0] (xs : List α) : SampleStatistics α := xs.foldl put empty

end Put

/-- The extremes are not in order, which happens with values that cannot be compared. -/
inductive Fault where
  | unordered
  deriving DecidableEq, Repr

def clamp [LT α] [DecidableLT α] (low high x : α) : α :=
  let x := if x < low then low else x
  if high < x then high else x

variable [Add α] [Sub α] [Mul α] [Div α] [OfNat α 0] [OfNat α 1] [NatCast α]
  [LT α] [DecidableLT α] [LE α] [DecidableLE α]

/-- The average, kept between the extremes against rounding; none without samples. -/
def mean (s : SampleStatistics α) : Except Fault (Option α) :=
  if s.isEmpty then .ok none
  else if s.least ≤ s.most then .ok (some (clamp s.least s.most (s.sum / (s.samples : α))))
  else .error .unordered

/-- The sample variance, which is not negative; none with less than two samples. A quotient that is
not comparable with zero gives zero. -/
def variance [BEq α] (s : SampleStatistics α) : Option α :=
  if s.samples < 2 then none
  else if s.least == s.most then some 0
  else
    let n : α := s.samples
    let quotient := (s.sumOfSquares - s.sum * s.sum / n) / (n - 1)
    some (if 0 ≤ quotient then quotient else 0)

/-- The standard deviation, at most the distance of the extremes; none with less than two samples.
`root` is the square root. -/
def deviation [BEq α] (root : α → α) (s : SampleStatistics α) : Option α :=
  s.variance.map fun v =>
    let spread := s.most - s.least
    if spread < root v then spread else root v

end SampleStatistics

instance natCastFloat : NatCast Float where
  natCast := Float.ofNat

end MaximalCliques

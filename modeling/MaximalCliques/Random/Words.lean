import MaximalCliques.Basic

/-!
# Sources of random words

Everything random is made from words of 64 bits. A source gives its words one after another and may
run dry. The generator `Xoshiro` never does; a list of words is a source for those who want to choose
what is drawn.
-/

namespace MaximalCliques

class WordSource (σ : Type) where
  /-- The next word and the source after it, unless the source has run dry. -/
  next? : σ → Option (UInt64 × σ)

instance : WordSource (List UInt64) where
  next?
    | [] => none
    | w :: ws => some (w, ws)

/-- The xoshiro256** generator. -/
structure Xoshiro where
  s0 : UInt64
  s1 : UInt64
  s2 : UInt64
  s3 : UInt64
  deriving DecidableEq, Repr

namespace Xoshiro

def rotateLeft (x : UInt64) (k : UInt64) : UInt64 := (x <<< k) ||| (x >>> (64 - k))

/-- The output of SplitMix64 at counter `x`. -/
def mix (x : UInt64) : UInt64 :=
  let z := (x ^^^ (x >>> 30)) * 0xbf58476d1ce4e5b9
  let z := (z ^^^ (z >>> 27)) * 0x94d049bb133111eb
  z ^^^ (z >>> 31)

def gamma : UInt64 := 0x9e3779b97f4a7c15

/-- The state made of the first four SplitMix64 outputs of a seed. -/
def ofSeed (seed : UInt64) : Xoshiro where
  s0 := mix (seed + gamma)
  s1 := mix (seed + 2 * gamma)
  s2 := mix (seed + 3 * gamma)
  s3 := mix (seed + 4 * gamma)

def next (x : Xoshiro) : UInt64 × Xoshiro :=
  let s2 := x.s2 ^^^ x.s0
  let s3 := x.s3 ^^^ x.s1
  (rotateLeft (x.s1 * 5) 7 * 9,
    { s0 := x.s0 ^^^ s3
      s1 := x.s1 ^^^ s2
      s2 := s2 ^^^ (x.s1 <<< 17)
      s3 := rotateLeft s3 45 })

instance : WordSource Xoshiro where
  next? x := some x.next

end Xoshiro

/-- Draw a number below `bound`, which is not zero. A word is scaled to the range by a widening
multiplication; words whose low half falls beyond the greatest fitting multiple of the range, given
by the bound shifted up to the full width, are rejected. `fuel` limits the number of words. -/
def drawBelow {σ : Type} [WordSource σ] (bound : Nat) : Nat → σ → Option (Nat × σ)
  | 0, _ => none
  | fuel + 1, source =>
    match WordSource.next? source with
    | none => none
    | some (w, source) =>
      let product := w.toNat * bound
      if product % countBound < bound <<< (63 - Nat.log2 bound) then
        some (product / countBound, source)
      else drawBelow bound fuel source

end MaximalCliques

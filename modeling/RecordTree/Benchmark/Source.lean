/-!
# `RecordTree.Benchmark.Source`: streams of numbers

The benchmark draws all its data from one stream. Any type whose values yield a number and
the rest of the stream will do (`Source`). `Xoshiro` is the stream of xoshiro256++, made
from a seed.
-/

set_option autoImplicit false

namespace RecordTree.Benchmark

/-- A stream of 64-bit numbers. -/
class Source (γ : Type) where
  /-- The next number and the stream behind it. -/
  draw : γ → UInt64 × γ

variable {γ : Type} [Source γ]

/-- The next number, taken below `bound`. -/
def drawBelow (bound : UInt64) (g : γ) : Nat × γ :=
  let (n, g) := Source.draw g
  ((n % bound).toNat, g)

/-- The next `count` bytes, each from bits 32 to 39 of a number. -/
def drawBytes : Nat → γ → List UInt8 × γ
  | 0, g => ([], g)
  | count + 1, g =>
    let (n, g) := Source.draw g
    let (bytes, g) := drawBytes count g
    ((n >>> 32).toUInt8 :: bytes, g)

/-- The state of a xoshiro256++ generator. -/
structure Xoshiro where
  s0 : UInt64
  s1 : UInt64
  s2 : UInt64
  s3 : UInt64
deriving DecidableEq

namespace Xoshiro

/-- `x` rotated left by `k` bits. -/
def rotateLeft (x k : UInt64) : UInt64 := (x <<< k) ||| (x >>> (64 - k))

/-- `x` rotated right by `k` bits. -/
def rotateRight (x k : UInt32) : UInt32 := (x >>> k) ||| (x <<< ((32 - k) % 32))

/-- One step of the generator. -/
def next (g : Xoshiro) : UInt64 × Xoshiro :=
  let t := g.s1 <<< 17
  let s2 := g.s2 ^^^ g.s0
  let s3 := g.s3 ^^^ g.s1
  (rotateLeft (g.s0 + g.s3) 23 + g.s0,
    ⟨g.s0 ^^^ s3, g.s1 ^^^ s2, s2 ^^^ t, rotateLeft s3 45⟩)

/-- One step of the linear congruential generator that spreads a seed: 32 bits of output from
the new state, and the state. -/
def spread (state : UInt64) : UInt32 × UInt64 :=
  let state := state * 6364136223846793005 + 11634580027462260723
  let x := (((state >>> 18) ^^^ state) >>> 27).toUInt32
  (rotateRight x (state >>> 59).toUInt32, state)

/-- Two outputs of `spread` as one word, the first one low. -/
def spreadWord (state : UInt64) : UInt64 × UInt64 :=
  let (low, state) := spread state
  let (high, state) := spread state
  (low.toUInt64 + (high.toUInt64 <<< 32), state)

/-- The generator that `seed` stands for. -/
def ofSeed (seed : UInt64) : Xoshiro :=
  let (s0, state) := spreadWord seed
  let (s1, state) := spreadWord state
  let (s2, state) := spreadWord state
  let (s3, _) := spreadWord state
  ⟨s0, s1, s2, s3⟩

end Xoshiro

instance : Source Xoshiro := ⟨Xoshiro.next⟩

end RecordTree.Benchmark

import PrivateHistogram.RandomTape

/-!
Geometric random numbers: how often an event of a given probability fails to happen before it happens.

A likely event is simply tried. For an unlikely one the number is put together from two parts: how many
whole runs of `2^bits` trials fail, and how many more fail after them.
-/

namespace PrivateHistogram

namespace Uniform

/-- A uniformly random float from zero to below one: 53 random bits over `2^53`. -/
def draw {σ : Type} [ByteSource σ] (s : σ) : Float × σ :=
  let (word, s) := ByteSource.word64 s
  ((word >>> 11).toFloat / 9007199254740992.0, s)

end Uniform

structure Geometric where
  /-- The probability of the event. -/
  chance : Float
  /-- The probability that a run of trials fails. -/
  runFails : Float
  /-- The binary logarithm of the length of a run. -/
  bits : Nat

namespace Geometric

/-- Doubles the length of a run until it fails at most half of the time. -/
def halve : (limit : Nat) → (runFails : Float) → (bits : Nat) → Float × Nat
  | 0, runFails, bits => (runFails, bits)
  | limit + 1, runFails, bits => if runFails > 0.5 then halve limit (runFails * runFails) (bits + 1) else (runFails, bits)

/-- The distribution for an event whose probability is positive, at most one, and large enough for
`1 - chance` to be less than one. The length of a run is then at most `2^64`. -/
def ofChance (chance : Float) : Geometric :=
  if chance ≥ 2.0 / 3.0 then ⟨chance, chance, 0⟩
  else
    let fails := 1.0 - chance
    let (runFails, bits) := halve 64 (fails * fails) 1
    ⟨chance, runFails, bits⟩

/-- `product * base^n` by squaring, the lowest bit of the exponent first. -/
def powerTimes (product base : Float) (n : Nat) : Float :=
  let product := if n % 2 = 1 then product * base else product
  if n / 2 = 0 then product else powerTimes product (base * base) (n / 2)
termination_by n

/-- The probability that `n` trials fail. -/
def allFail (g : Geometric) (n : UInt64) : Float :=
  let fails := 1.0 - g.chance
  if n ≤ 0x7fffffff then powerTimes 1.0 fails n.toNat else fails ^ n.toFloat

/-- A random number of failures. -/
def draw {σ : Type} [ByteSource σ] (g : Geometric) (s : σ) : UInt64 × σ :=
  if g.chance ≥ 2.0 / 3.0 then
    let (failures, s) := ByteSource.countUntil (fun s =>
      let (u, s) := Uniform.draw s
      (u ≤ g.chance, s)) ByteSource.retries 0 s
    (UInt64.ofNat failures, s)
  else
    let (runs, s) := ByteSource.countUntil (fun s =>
      let (u, s) := Uniform.draw s
      (!(u < g.runFails), s)) ByteSource.retries 0 s
    -- A number below the length of a run, kept as often as so many trials fail.
    let (more, s) := ByteSource.untilSome (fun s =>
      let (word, s) := ByteSource.word64 s
      let n := UInt64.ofNat (word.toNat % Nat.pow 2 g.bits)
      let (u, s) := Uniform.draw s
      (if u < g.allFail n then some n else none, s)) 0 ByteSource.retries s
    (UInt64.ofNat (runs * Nat.pow 2 g.bits) + more, s)

end Geometric

end PrivateHistogram

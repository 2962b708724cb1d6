import PrivateHistogram.RandomTape

/-!
A tape that a 64-bit seed determines: the outputs of the SplitMix64 generator, each as eight bytes
with the least significant first, after some bytes chosen freely.
-/

namespace PrivateHistogram.RandomTape

/-- What the generator adds to its state before each output. -/
def splitMixStep : UInt64 := 0x9e3779b97f4a7c15

/-- The output for a state. -/
def splitMixOutput (state : UInt64) : UInt64 :=
  let z := (state ^^^ (state >>> 30)) * 0xbf58476d1ce4e5b9
  let z := (z ^^^ (z >>> 27)) * 0x94d049bb133111eb
  z ^^^ (z >>> 31)

/-- Byte `i` of the outputs that follow from a seed. -/
def splitMixByte (seed : UInt64) (i : Nat) : UInt8 :=
  let output := splitMixOutput (seed + UInt64.ofNat (i / 8 + 1) * splitMixStep)
  (output >>> UInt64.ofNat (8 * (i % 8))).toUInt8

/-- The bytes of `lead`, then the outputs that follow from `seed`. -/
def splitMix (lead : Bytes) (seed : UInt64) (fault : Option String) : RandomTape :=
  let first := lead.toArray
  { byte := fun i => first.getD i (splitMixByte seed (i - first.size)), used := 0, fault }

end PrivateHistogram.RandomTape

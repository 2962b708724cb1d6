import PrivateHistogram.RandomTape

/-!
Sharing a secret between two parties: byte strings by exclusive or, integers by addition modulo `m`.

The first share is random and does not depend on the secret; the second is what the first lacks.
-/

namespace PrivateHistogram.SecretSharing

/-- Why a secret cannot be shared or put together again. -/
inductive Error
  | lengthMismatch (left right : Nat)
  /-- Integers modulo zero have no shares. -/
  | invalidModulus
  /-- The integer is not reduced. -/
  | valueOutOfRange (value modulus : Nat)
  /-- No random bytes, for the given reason. -/
  | source (reason : String)
deriving DecidableEq, Repr

def Error.message : Error → String
  | .lengthMismatch left right => s!"share lengths differ: {left} != {right}"
  | .invalidModulus => "modulus must be non-zero"
  | .valueOutOfRange value modulus => s!"value {value} is not less than modulus {modulus}"
  | .source reason => s!"random source failure: {reason}"

instance : ToString Error := ⟨Error.message⟩

/-- Two strings whose exclusive or is `data`, the first of them random. -/
def splitBytes (data : Bytes) : TryDraw Error (Bytes × Bytes) := fun tape =>
  match tape.take? data.length with
  | (.error reason, rest) => (.error (.source reason), rest)
  | (.ok share, rest) => (.ok (share, data.xor share), rest)

def combineBytes (a b : Bytes) : Except Error Bytes :=
  if a.length = b.length then .ok (a.xor b) else .error (.lengthMismatch a.length b.length)

/-- A uniformly random integer below `bound`, for `0 < bound ≤ 2^64`: the high half of `bound` times
a random word. A word is rejected if the low half exceeds the largest multiple of a power of two,
taken from `bound` shifted left until it fills the word. -/
def drawBelow (bound : Nat) (tape : RandomTape) : Nat × RandomTape :=
  let zone := bound * Nat.pow 2 (63 - bound.log2) - 1
  ByteSource.untilSome (fun tape =>
    let (word, rest) := ByteSource.word64 tape
    let product := word.toNat * bound
    (if product % UInt64.size ≤ zone then some (product / UInt64.size) else none, rest)) 0 ByteSource.retries tape

/-- Two integers below `modulus` whose sum is `value` modulo `modulus`, the first of them random. -/
def splitInt (value modulus : Nat) : TryDraw Error (Nat × Nat) := fun tape =>
  if modulus = 0 then (.error .invalidModulus, tape)
  else if modulus ≤ value then (.error (.valueOutOfRange value modulus), tape)
  else
    let (share, rest) := drawBelow modulus tape
    (.ok (share, if share ≤ value then value - share else modulus - (share - value)), rest)

def combineInt (a b modulus : Nat) : Except Error Nat :=
  if modulus = 0 then .error .invalidModulus else .ok ((a + b) % modulus)

end PrivateHistogram.SecretSharing

import PrivateHistogram.Attempt
import PrivateHistogram.Octets

/-!
Where random bytes come from.

A random tape is an endless string of bytes read from the front, each byte once. Everything that
needs randomness takes a tape and hands back what is left of it, so a result is a function of its
inputs and of the bytes on the tape. A tape may carry a fault, which only the reads that are able to
fail report.
-/

namespace PrivateHistogram

/-- An endless string of random bytes and how many of them have been read. -/
structure RandomTape where
  byte : Nat → UInt8
  used : Nat
  /-- Why a read that is able to fail does so. -/
  fault : Option String

/-- What bytes can be read from, each byte once. -/
class ByteSource (σ : Type) where
  take : Nat → σ → Bytes × σ

namespace ByteSource

variable {σ : Type} [ByteSource σ]

/-- The next eight bytes as a number, least significant byte first. -/
def word64 (s : σ) : UInt64 × σ :=
  let (bytes, rest) := take 8 s
  (UInt64.ofNat bytes.toNatLittle, rest)

/-- The next four bytes as a number, least significant byte first. -/
def word32 (s : σ) : UInt32 × σ :=
  let (bytes, rest) := take 4 s
  (UInt32.ofNat bytes.toNatLittle, rest)

/-- Repeats an attempt until it gives a value. After `limit` attempts the fallback is taken. -/
def untilSome {α : Type} (attempt : σ → Option α × σ) (fallback : α) : (limit : Nat) → σ → α × σ
  | 0, s => (fallback, s)
  | limit + 1, s =>
    match attempt s with
    | (some a, rest) => (a, rest)
    | (none, rest) => untilSome attempt fallback limit rest

/-- How often an attempt that rejects some draws is repeated: far more often than any source that is
not made to be rejected lasts. -/
def retries : Nat := Nat.pow 2 40

/-- The number of attempts in a row that give no value, and the source after the one that gave one. -/
def countUntil (stop : σ → Bool × σ) : (limit : Nat) → (failures : Nat) → σ → Nat × σ
  | 0, failures, s => (failures, s)
  | limit + 1, failures, s =>
    match stop s with
    | (true, rest) => (failures, rest)
    | (false, rest) => countUntil stop limit (failures + 1) rest

end ByteSource

namespace RandomTape

/-- The next `n` bytes. -/
def take (n : Nat) (tape : RandomTape) : Bytes × RandomTape :=
  ((List.range n).map fun i => tape.byte (tape.used + i), { tape with used := tape.used + n })

instance : ByteSource RandomTape := ⟨take⟩

/-- The next `n` bytes as a string of that length. -/
def octets (n : Nat) (tape : RandomTape) : Octets n × RandomTape :=
  (Vector.ofFn fun i => tape.byte (tape.used + i), { tape with used := tape.used + n })

/-- The next `n` bytes, or the fault of a tape that has one. -/
def take? (n : Nat) (tape : RandomTape) : Except String Bytes × RandomTape :=
  match tape.fault with
  | some reason => (.error reason, tape)
  | none =>
    let (bytes, rest) := tape.take n
    (.ok bytes, rest)

theorem length_take (n : Nat) (tape : RandomTape) : (tape.take n).1.length = n := by
  simp [take]

end RandomTape

abbrev Draw := StateM RandomTape

/-- A computation that reads from a random tape and may fail; what was read stays read. -/
abbrev TryDraw (ε : Type) := Attempt RandomTape ε

end PrivateHistogram

import PrivateHistogram.Octets

/-!
The Keccak sponge and two functions built on it: the hash SHA3-256 and the extendable output
SHAKE128.
-/

namespace PrivateHistogram.Hash

namespace Keccak

/-- Twenty-five lanes of 64 bits, lane `x + 5 y` at column `x` and row `y`. -/
abbrev Lanes := Array UInt64

def lane (a : Lanes) (x y : Nat) : UInt64 := a.getD (x % 5 + 5 * (y % 5)) 0

def tabulate (f : Nat → Nat → UInt64) : Lanes :=
  (Array.range 25).map fun i => f (i % 5) (i / 5)

def rotate (x : UInt64) (n : Nat) : UInt64 :=
  if n % 64 = 0 then x else (x <<< UInt64.ofNat (n % 64)) ||| (x >>> UInt64.ofNat (64 - n % 64))

/-- How far lane `x + 5 y` is rotated: the `t`-th lane on the walk `(x, y) ↦ (y, 2 x + 3 y)` from
`(1, 0)` by the `t + 1`-st triangular number. -/
def rotations : Array Nat :=
  ((List.range 24).foldl (fun (s : Array Nat × Nat × Nat) t =>
    (s.1.setIfInBounds (s.2.1 + 5 * s.2.2) ((t + 1) * (t + 2) / 2 % 64), s.2.2, (2 * s.2.1 + 3 * s.2.2) % 5))
    (Array.replicate 25 0, 1, 0)).1

/-- The states of the eight-bit shift register whose low bits make up the round constants. -/
def registerStep (r : Nat) : Nat := if r < 128 then 2 * r else (2 * r) % 256 ^^^ 0x71

/-- The constant that each round adds to the first lane: bit `2^j - 1` is the register's low bit
after `7 i + j` steps. -/
def roundConstants : List UInt64 :=
  (List.range 24).map fun i =>
    (List.range 7).foldl (fun c j =>
      if (Nat.repeat registerStep (7 * i + j) 1) % 2 = 1 then c ||| (1 <<< UInt64.ofNat (Nat.pow 2 j - 1)) else c) 0

def round (a : Lanes) (constant : UInt64) : Lanes :=
  let column := (Array.range 5).map fun x =>
    lane a x 0 ^^^ lane a x 1 ^^^ lane a x 2 ^^^ lane a x 3 ^^^ lane a x 4
  let parity := (Array.range 5).map fun x => column.getD ((x + 4) % 5) 0 ^^^ rotate (column.getD ((x + 1) % 5) 0) 1
  let a := tabulate fun x y => lane a x y ^^^ parity.getD x 0
  -- The lane at `(x, y)` comes from `(x + 3 y, x)`, rotated.
  let b := tabulate fun x y => rotate (lane a (x + 3 * y) x) (rotations.getD ((x + 3 * y) % 5 + 5 * x) 0)
  let c := tabulate fun x y => lane b x y ^^^ ((lane b (x + 1) y).complement &&& lane b (x + 2) y)
  c.modify 0 (· ^^^ constant)

def permute (a : Lanes) : Lanes := roundConstants.foldl round a

/-- The state after a block has been added to it. -/
def absorb (state : Lanes) (block : Bytes) : Lanes :=
  let words := (block.chunks 8).toArray.map fun w => UInt64.ofNat w.toNatLittle
  permute (state.mapIdx fun i w => w ^^^ words.getD i 0)

/-- The first `rate` bytes of a state. -/
def squeeze (rate : Nat) (state : Lanes) : Bytes :=
  (state.toList.take (rate / 8)).flatMap fun w => Bytes.ofNatLittle 8 w.toNat

/-- `count` blocks of output, each after a permutation of the state before it. -/
def output (rate : Nat) : (count : Nat) → Lanes → Bytes
  | 0, _ => []
  | count + 1, state => squeeze rate state ++ output rate count (permute state)

/-- The message followed by the domain bits, zeros and a final one bit, filled up to whole blocks. -/
def pad (rate : Nat) (domain : UInt8) (message : Bytes) : Bytes :=
  let free := rate - message.length % rate
  if free = 1 then message ++ [domain ||| 0x80]
  else message ++ domain :: List.replicate (free - 2) 0 ++ [0x80]

/-- The first `size` bytes that the sponge gives for a message. -/
def sponge (rate : Nat) (domain : UInt8) (size : Nat) (message : Bytes) : Bytes :=
  let state := ((pad rate domain message).chunks rate).foldl absorb (Array.replicate 25 0)
  (output rate ((size + rate - 1) / rate) state).take size

end Keccak

/-- The 32-byte hash SHA3-256 of a message. -/
def sha3_256 (message : Bytes) : Bytes := Keccak.sponge 136 0x06 32 message

/-- The first `size` bytes of the SHAKE128 output for a message. -/
def shake128 (size : Nat) (message : Bytes) : Bytes := Keccak.sponge 168 0x1f size message

end PrivateHistogram.Hash

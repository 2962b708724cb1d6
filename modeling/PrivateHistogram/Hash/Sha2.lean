import PrivateHistogram.Octets

/-!
The hash functions SHA-256 and SHA-512.

Both are the same construction over words of 32 and of 64 bits. Their constants are the first bits of
the fractional parts of square and cube roots of the first primes, and are computed as such.
-/

namespace PrivateHistogram.Hash

/-- The largest number below `2^bits` whose `degree`-th power does not exceed `n`. -/
def root (degree n : Nat) : (bits : Nat) → (found : Nat) → Nat
  | 0, found => found
  | bits + 1, found =>
    let next := found + Nat.pow 2 bits
    root degree n bits (if Nat.pow next degree ≤ n then next else found)

def primes : List Nat :=
  ((List.range 410).filter fun n => 2 ≤ n ∧ ∀ d ∈ List.range n, 2 ≤ d → n % d ≠ 0).take 80

/-- The first `bits` bits of the fractional part of the `degree`-th root of a small number. -/
def rootFraction (degree bits n : Nat) : Nat :=
  root degree (n * Nat.pow 2 (degree * bits)) (bits + 8) 0 % Nat.pow 2 bits

/-- The message with a one bit, zeros and its length in bits, filled up to whole blocks. -/
def pad (block lengthSize : Nat) (message : Bytes) : Bytes :=
  let zeros := (2 * block - 1 - lengthSize - message.length % block) % block
  message ++ 0x80 :: List.replicate zeros 0 ++ Bytes.ofNatBig lengthSize (8 * message.length)

namespace Sha256

def roundConstants : Array UInt32 := (primes.take 64).toArray.map fun p => UInt32.ofNat (rootFraction 3 32 p)

def initial : Array UInt32 := (primes.take 8).toArray.map fun p => UInt32.ofNat (rootFraction 2 32 p)

def rotate (x : UInt32) (n : UInt32) : UInt32 := (x >>> n) ||| (x <<< (32 - n))

/-- The sixteen words of a block and the forty-eight that follow from them. -/
def schedule (block : Bytes) : Array UInt32 :=
  let first := (block.chunks 4).toArray.map fun w => UInt32.ofNat w.toNatBig
  (List.range 48).foldl (fun w t =>
    let a := w.getD (t + 1) 0
    let b := w.getD (t + 14) 0
    let s0 := rotate a 7 ^^^ rotate a 18 ^^^ (a >>> 3)
    let s1 := rotate b 17 ^^^ rotate b 19 ^^^ (b >>> 10)
    w.push (w.getD t 0 + s0 + w.getD (t + 9) 0 + s1)) first

structure Working where
  (a b c d e f g h : UInt32)

def Working.step (s : Working) (k w : UInt32) : Working :=
  let s1 := rotate s.e 6 ^^^ rotate s.e 11 ^^^ rotate s.e 25
  let choice := (s.e &&& s.f) ^^^ (s.e.complement &&& s.g)
  let t1 := s.h + s1 + choice + k + w
  let s0 := rotate s.a 2 ^^^ rotate s.a 13 ^^^ rotate s.a 22
  let majority := (s.a &&& s.b) ^^^ (s.a &&& s.c) ^^^ (s.b &&& s.c)
  ⟨t1 + s0 + majority, s.a, s.b, s.c, s.d + t1, s.e, s.f, s.g⟩

def absorb (state : Array UInt32) (block : Bytes) : Array UInt32 :=
  let w := schedule block
  let word := fun i => state.getD i 0
  let start : Working := ⟨word 0, word 1, word 2, word 3, word 4, word 5, word 6, word 7⟩
  let s := (List.range 64).foldl (fun s t => s.step (roundConstants.getD t 0) (w.getD t 0)) start
  #[word 0 + s.a, word 1 + s.b, word 2 + s.c, word 3 + s.d, word 4 + s.e, word 5 + s.f, word 6 + s.g, word 7 + s.h]

end Sha256

def sha256 (message : Bytes) : Bytes :=
  let state := ((pad 64 8 message).chunks 64).foldl Sha256.absorb Sha256.initial
  state.toList.flatMap fun w => Bytes.ofNatBig 4 w.toNat

namespace Sha512

def roundConstants : Array UInt64 := primes.toArray.map fun p => UInt64.ofNat (rootFraction 3 64 p)

def initial : Array UInt64 := (primes.take 8).toArray.map fun p => UInt64.ofNat (rootFraction 2 64 p)

def rotate (x : UInt64) (n : UInt64) : UInt64 := (x >>> n) ||| (x <<< (64 - n))

/-- The sixteen words of a block and the sixty-four that follow from them. -/
def schedule (block : Bytes) : Array UInt64 :=
  let first := (block.chunks 8).toArray.map fun w => UInt64.ofNat w.toNatBig
  (List.range 64).foldl (fun w t =>
    let a := w.getD (t + 1) 0
    let b := w.getD (t + 14) 0
    let s0 := rotate a 1 ^^^ rotate a 8 ^^^ (a >>> 7)
    let s1 := rotate b 19 ^^^ rotate b 61 ^^^ (b >>> 6)
    w.push (w.getD t 0 + s0 + w.getD (t + 9) 0 + s1)) first

structure Working where
  (a b c d e f g h : UInt64)

def Working.step (s : Working) (k w : UInt64) : Working :=
  let s1 := rotate s.e 14 ^^^ rotate s.e 18 ^^^ rotate s.e 41
  let choice := (s.e &&& s.f) ^^^ (s.e.complement &&& s.g)
  let t1 := s.h + s1 + choice + k + w
  let s0 := rotate s.a 28 ^^^ rotate s.a 34 ^^^ rotate s.a 39
  let majority := (s.a &&& s.b) ^^^ (s.a &&& s.c) ^^^ (s.b &&& s.c)
  ⟨t1 + s0 + majority, s.a, s.b, s.c, s.d + t1, s.e, s.f, s.g⟩

def absorb (state : Array UInt64) (block : Bytes) : Array UInt64 :=
  let w := schedule block
  let word := fun i => state.getD i 0
  let start : Working := ⟨word 0, word 1, word 2, word 3, word 4, word 5, word 6, word 7⟩
  let s := (List.range 80).foldl (fun s t => s.step (roundConstants.getD t 0) (w.getD t 0)) start
  #[word 0 + s.a, word 1 + s.b, word 2 + s.c, word 3 + s.d, word 4 + s.e, word 5 + s.f, word 6 + s.g, word 7 + s.h]

end Sha512

def sha512 (message : Bytes) : Bytes :=
  let state := ((pad 128 16 message).chunks 128).foldl Sha512.absorb Sha512.initial
  state.toList.flatMap fun w => Bytes.ofNatBig 8 w.toNat

end PrivateHistogram.Hash

import PrivateHistogram.Cipher.Aes

/-!
Authenticated encryption: AES with a 128-bit key in Galois counter mode, with a nonce of twelve bytes
and a tag of sixteen.
-/

namespace PrivateHistogram.Gcm

/-- A block as a polynomial over two elements. The first bit of the block, the highest of `high`, is
the coefficient of degree zero. -/
structure Polynomial where
  (high low : UInt64)

namespace Polynomial

def ofOctets (o : Octets 16) : Polynomial :=
  ⟨UInt64.ofNat (Bytes.toNatBig (o.toBytes.take 8)), UInt64.ofNat (Bytes.toNatBig (o.toBytes.drop 8))⟩

def toBytes (p : Polynomial) : Bytes := Bytes.ofNatBig 8 p.high.toNat ++ Bytes.ofNatBig 8 p.low.toNat

def xor (a b : Polynomial) : Polynomial := ⟨a.high ^^^ b.high, a.low ^^^ b.low⟩

/-- Multiplication by the variable, modulo `x^128 + x^7 + x^2 + x + 1`. -/
def shift (p : Polynomial) : Polynomial :=
  let high := p.high >>> 1
  let low := (p.low >>> 1) ||| (p.high <<< 63)
  if p.low &&& 1 = 0 then ⟨high, low⟩ else ⟨high ^^^ 0xe100000000000000, low⟩

/-- The sum of `b`, shifted, over the coefficients of `word` from its highest bit on. -/
def multiplyWord (word : UInt64) : (bits : Nat) → (sum b : Polynomial) → Polynomial × Polynomial
  | 0, sum, b => (sum, b)
  | bits + 1, sum, b =>
    multiplyWord word bits (if (word >>> UInt64.ofNat bits) &&& 1 = 0 then sum else sum.xor b) b.shift

def multiply (a b : Polynomial) : Polynomial :=
  let (sum, shifted) := multiplyWord a.high 64 ⟨0, 0⟩ b
  (multiplyWord a.low 64 sum shifted).1

end Polynomial

/-- The hash of a message given as bytes, block by block. -/
def hash (key : Polynomial) (message : Bytes) (start : Polynomial) : Polynomial :=
  (message.chunks 16).foldl (fun p block => (p.xor (Polynomial.ofOctets (block.fit 16))).multiply key) start

def counter (nonce : Bytes) (n : Nat) : Octets 16 := (nonce ++ Bytes.ofNatBig 4 n).fit 16

/-- The message under the key stream that starts at counter 2. Applied twice it gives the message
back. -/
def crypt (key : Aes.Key) (nonce message : Bytes) : Bytes :=
  ((message.chunks 16).zipIdx.map fun (block, i) => block.xor (Aes.encrypt key (counter nonce (i + 2))).toBytes).flatten

/-- The tag of associated data and an encrypted message. -/
def tag (key : Aes.Key) (nonce associated sealed : Bytes) : Bytes :=
  let h := Polynomial.ofOctets (Aes.encrypt key (Octets.zero 16))
  let lengths := Bytes.ofNatBig 8 (8 * associated.length) ++ Bytes.ofNatBig 8 (8 * sealed.length)
  let p := hash h lengths (hash h sealed (hash h associated ⟨0, 0⟩))
  p.toBytes.xor (Aes.encrypt key (counter nonce 1)).toBytes

def encrypt (key : Aes.Key) (nonce associated message : Bytes) : Bytes :=
  let sealed := crypt key nonce message
  sealed ++ tag key nonce associated sealed

/-- The message, if the tag at the end is that of what stands before it. -/
def decrypt? (key : Aes.Key) (nonce associated sealed : Bytes) : Option Bytes :=
  if sealed.length < 16 then none
  else
    let body := sealed.take (sealed.length - 16)
    if sealed.drop (sealed.length - 16) = tag key nonce associated body then some (crypt key nonce body) else none

end PrivateHistogram.Gcm

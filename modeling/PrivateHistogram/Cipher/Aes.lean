import PrivateHistogram.Octets

/-!
The block cipher AES with a key of 128 bits.

The substitution box is computed from its definition: the inverse in the field of 256 elements,
followed by an affine map. A round works on four columns of 32 bits, with the substitution and the
mixing of a column read from one table.
-/

namespace PrivateHistogram.Aes

/-- Multiplication by `x` in the field of 256 elements. -/
def double (a : Nat) : Nat := if a < 128 then 2 * a else (2 * a) ^^^ 0x11b

/-- Multiplication in the field of 256 elements, by the low `bits` bits of the second factor. -/
def multiply : (bits : Nat) → Nat → Nat → Nat
  | 0, _, _ => 0
  | bits + 1, a, b => (if b % 2 = 1 then a else 0) ^^^ multiply bits (double a) (b / 2)

/-- `a` to the power 254, which is the inverse of `a` unless `a` is zero. -/
def inverse (a : Nat) : Nat :=
  (List.range 7).foldl (fun r i => multiply 8 r (Nat.repeat (fun x => multiply 8 x x) (i + 1) a)) 1

def rotateByte (a n : Nat) : Nat := (a <<< n) % 256 ||| (a >>> (8 - n))

/-- What the substitution box gives for a byte. -/
def substitute (a : Nat) : Nat :=
  let b := inverse a
  b ^^^ rotateByte b 1 ^^^ rotateByte b 2 ^^^ rotateByte b 3 ^^^ rotateByte b 4 ^^^ 0x63

def sbox : Array UInt8 := (Array.range 256).map fun a => UInt8.ofNat (substitute a)

def sub (b : UInt8) : UInt32 := (sbox.getD b.toNat 0).toUInt32

/-- The column that a byte in its first row contributes to a mixed column. -/
def mixTable : Array UInt32 :=
  (Array.range 256).map fun a =>
    let s := substitute a
    UInt32.ofNat (double s <<< 24 + s <<< 16 + s <<< 8 + (double s ^^^ s))

def mix (b : UInt8) : UInt32 := mixTable.getD b.toNat 0

def rotateRight (x : UInt32) (n : UInt32) : UInt32 := (x >>> n) ||| (x <<< (32 - n))

def row0 (c : UInt32) : UInt8 := (c >>> 24).toUInt8
def row1 (c : UInt32) : UInt8 := (c >>> 16).toUInt8
def row2 (c : UInt32) : UInt8 := (c >>> 8).toUInt8
def row3 (c : UInt32) : UInt8 := c.toUInt8

/-- Four columns of four bytes; the first row is in the highest bits. -/
structure Block where
  (c0 c1 c2 c3 : UInt32)

namespace Block

def ofOctets (o : Octets 16) : Block :=
  let column (i : Nat) (h : i + 3 < 16) : UInt32 :=
    (o[i].toUInt32 <<< 24) ||| (o[i + 1].toUInt32 <<< 16) ||| (o[i + 2].toUInt32 <<< 8) ||| o[i + 3].toUInt32
  ⟨column 0 (by decide), column 4 (by decide), column 8 (by decide), column 12 (by decide)⟩

def toOctets (b : Block) : Octets 16 :=
  #v[row0 b.c0, row1 b.c0, row2 b.c0, row3 b.c0, row0 b.c1, row1 b.c1, row2 b.c1, row3 b.c1,
    row0 b.c2, row1 b.c2, row2 b.c2, row3 b.c2, row0 b.c3, row1 b.c3, row2 b.c3, row3 b.c3]

def xor (a b : Block) : Block := ⟨a.c0 ^^^ b.c0, a.c1 ^^^ b.c1, a.c2 ^^^ b.c2, a.c3 ^^^ b.c3⟩

/-- Substitution, shift of the rows and mixing of the columns. -/
def round (b : Block) (key : Block) : Block :=
  let column (p q r s : UInt32) : UInt32 :=
    mix (row0 p) ^^^ rotateRight (mix (row1 q)) 8 ^^^ rotateRight (mix (row2 r)) 16 ^^^ rotateRight (mix (row3 s)) 24
  xor key ⟨column b.c0 b.c1 b.c2 b.c3, column b.c1 b.c2 b.c3 b.c0, column b.c2 b.c3 b.c0 b.c1,
    column b.c3 b.c0 b.c1 b.c2⟩

/-- The last round, which does not mix the columns. -/
def lastRound (b : Block) (key : Block) : Block :=
  let column (p q r s : UInt32) : UInt32 :=
    (sub (row0 p) <<< 24) ||| (sub (row1 q) <<< 16) ||| (sub (row2 r) <<< 8) ||| sub (row3 s)
  xor key ⟨column b.c0 b.c1 b.c2 b.c3, column b.c1 b.c2 b.c3 b.c0, column b.c2 b.c3 b.c0 b.c1,
    column b.c3 b.c0 b.c1 b.c2⟩

end Block

/-- The keys of the rounds: the first, those of the nine rounds that mix, and the last. -/
structure Key where
  first : Block
  middle : List Block
  last : Block

namespace Key

/-- The next round's key, from this round's and the round's constant. -/
def next (k : Block) (constant : Nat) : Block :=
  let substituted := (sub (row1 k.c3) <<< 24) ||| (sub (row2 k.c3) <<< 16) ||| (sub (row3 k.c3) <<< 8) ||| sub (row0 k.c3)
  let c0 := k.c0 ^^^ substituted ^^^ (UInt32.ofNat constant <<< 24)
  let c1 := k.c1 ^^^ c0
  let c2 := k.c2 ^^^ c1
  ⟨c0, c1, c2, k.c3 ^^^ c2⟩

def ofOctets (key : Octets 16) : Key :=
  let first := Block.ofOctets key
  let (middle, k, constant) := (List.range 9).foldl (fun (s : List Block × Block × Nat) _ =>
    let k := next s.2.1 s.2.2
    (s.1 ++ [k], k, double s.2.2)) ([], first, 1)
  ⟨first, middle, next k constant⟩

end Key

def encryptBlock (key : Key) (block : Block) : Block :=
  (key.middle.foldl Block.round (block.xor key.first)).lastRound key.last

def encrypt (key : Key) (block : Octets 16) : Octets 16 :=
  (encryptBlock key (Block.ofOctets block)).toOctets

end PrivateHistogram.Aes

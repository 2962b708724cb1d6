import PrivateHistogram.Curve.Coordinate
import PrivateHistogram.Curve.Scalar
import PrivateHistogram.Hash.Sha2

/-!
The Ristretto group: a group of prime order made from the points of a twisted Edwards curve, with one
encoding of 32 bytes for each element.
-/

namespace PrivateHistogram

/-- A point of the curve `-x² + y² = 1 + d x² y²` in extended coordinates: `x = X / Z`, `y = Y / Z` and
`x y = T / Z`. Several points stand for one element of the group. -/
structure Ristretto where
  (x y z t : Nat)

namespace Ristretto

open Coordinate

def d : Nat := mul (neg 121665) (inverse 121666)

def twiceD : Nat := add d d

def zero : Ristretto := ⟨0, 1, 1, 0⟩

def neg (p : Ristretto) : Ristretto := ⟨Coordinate.neg p.x, p.y, p.z, Coordinate.neg p.t⟩

def add (p q : Ristretto) : Ristretto :=
  let a := mul (sub p.y p.x) (sub q.y q.x)
  let b := mul (Coordinate.add p.y p.x) (Coordinate.add q.y q.x)
  let c := mul (mul p.t twiceD) q.t
  let e := mul (Coordinate.add p.z p.z) q.z
  let f := sub b a
  let g := sub e c
  let h := Coordinate.add e c
  let i := Coordinate.add b a
  ⟨mul f g, mul h i, mul g h, mul f i⟩

def double (p : Ristretto) : Ristretto :=
  let a := square p.x
  let b := square p.y
  let c := Coordinate.add (square p.z) (square p.z)
  let h := Coordinate.add a b
  let e := sub h (square (Coordinate.add p.x p.y))
  let g := sub a b
  let f := Coordinate.add c g
  ⟨mul e f, mul g h, mul f g, mul e h⟩

/-- `n` times a point plus another, over the lowest `bits` bits of `n`. -/
def multiplyAdd (n : Nat) (p sum : Ristretto) : (bits : Nat) → Ristretto
  | 0 => sum
  | bits + 1 =>
    let sum := multiplyAdd (n / 2) p sum bits
    let sum := sum.double
    if n % 2 = 1 then sum.add p else sum

def multiply (n : Nat) (p : Ristretto) : Ristretto := multiplyAdd n p zero (n.log2 + 1)

/-- The point with `y = 4 / 5` and nonnegative `x`, which generates the group. -/
def generator : Ristretto :=
  let y := mul 4 (inverse 5)
  let x := (sqrtRatio (sub (square y) 1) (Coordinate.add (mul d (square y)) 1)).2
  ⟨x, y, 1, mul x y⟩

def inverseSqrtMinusOneMinusD : Nat := (inverseSqrt (sub (Coordinate.neg 1) d)).2

def sqrtMinusOneMinusD : Nat := Coordinate.neg (sqrtRatio (sub (Coordinate.neg 1) d) 1).2

/-- The encoding of an element, the same for every point that stands for it. -/
def encode (p : Ristretto) : Octets 32 :=
  let u1 := mul (Coordinate.add p.z p.y) (sub p.z p.y)
  let u2 := mul p.x p.y
  let r := (inverseSqrt (mul u1 (square u2))).2
  let d1 := mul r u1
  let d2 := mul r u2
  let zInverse := mul (mul d1 d2) p.t
  let rotate := isNegative (mul p.t zInverse)
  let x := if rotate then mul p.y sqrtMinusOne else p.x
  let y := if rotate then mul p.x sqrtMinusOne else p.y
  let dInverse := if rotate then mul d1 inverseSqrtMinusOneMinusD else d2
  let y := if isNegative (mul x zInverse) then Coordinate.neg y else y
  toOctets (abs (mul dInverse (sub p.z y)))

/-- Accepts exactly the encodings of elements. -/
def decode? (o : Octets 32) : Option Ristretto :=
  let s := o.toNatLittle
  if modulus ≤ s ∨ isNegative s then none
  else
    let ss := square s
    let u1 := sub 1 ss
    let u2 := Coordinate.add 1 ss
    let u2u2 := square u2
    let v := sub (Coordinate.neg (mul d (square u1))) u2u2
    let (isSquare, r) := inverseSqrt (mul v u2u2)
    let dx := mul r u2
    let dy := mul (mul r dx) v
    let x := abs (mul (Coordinate.add s s) dx)
    let y := mul u1 dy
    let t := mul x y
    if !isSquare || isNegative t || y = 0 then none else some ⟨x, y, 1, t⟩

def ofCoordinate (r0 : Nat) : Ristretto :=
  let one := 1
  let minusOne := Coordinate.neg 1
  let r := mul sqrtMinusOne (square r0)
  let u := mul (Coordinate.add r one) (sub one (square d))
  let v := mul (sub minusOne (mul r d)) (Coordinate.add r d)
  let (isSquare, s) := sqrtRatio u v
  let s := if isSquare then s else Coordinate.neg (abs (mul s r0))
  let c := if isSquare then minusOne else r
  let n := sub (mul (mul c (sub r one)) (square (sub d one))) v
  let w0 := mul (Coordinate.add s s) v
  let w1 := mul n sqrtMinusOneMinusD
  let w2 := sub one (square s)
  let w3 := Coordinate.add one (square s)
  ⟨mul w0 w3, mul w2 w1, mul w1 w3, mul w0 w2⟩

/-- The element that 64 bytes are mapped to: the sum of what their halves are mapped to. -/
def ofUniformBytes (bytes : Bytes) : Ristretto :=
  let coordinate (half : Bytes) := half.toNatLittle % Nat.pow 2 255 % modulus
  (ofCoordinate (coordinate (bytes.take 32))).add (ofCoordinate (coordinate (bytes.drop 32)))

end Ristretto

end PrivateHistogram

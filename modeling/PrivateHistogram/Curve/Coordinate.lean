import PrivateHistogram.Curve.Modular
import PrivateHistogram.Octets

/-!
The field of integers modulo `2^255 - 19`, over which the curves are defined. Coordinates are natural
numbers below the modulus; every operation reduces its result.
-/

namespace PrivateHistogram.Coordinate

/-- The prime `2^255 - 19`. -/
def modulus : Nat := 0x7fffffffffffffffffffffffffffffffffffffffffffffffffffffffffffffed

def add (a b : Nat) : Nat := (a + b) % modulus
def neg (a : Nat) : Nat := (modulus - a) % modulus
def sub (a b : Nat) : Nat := (a + (modulus - b)) % modulus
def mul (a b : Nat) : Nat := (a * b) % modulus
def square (a : Nat) : Nat := (a * a) % modulus

/-- The inverse; zero for zero. -/
def inverse (a : Nat) : Nat := Modular.power modulus a (modulus - 2)

/-- A coordinate is negative if the number that stands for it is odd. -/
def isNegative (a : Nat) : Bool := a % 2 = 1

/-- The one of `a` and `-a` that is not negative. -/
def abs (a : Nat) : Nat := if isNegative a then neg a else a

def sqrtMinusOne : Nat := Modular.power modulus 2 ((modulus - 1) / 4)

/-- Whether `u / v` is a square, and the nonnegative root of `u / v` if it is, of `sqrtMinusOne * u / v`
if it is not. The root is zero if `u` or `v` is. -/
def sqrtRatio (u v : Nat) : Bool × Nat :=
  let v3 := mul (square v) v
  let v7 := mul (square v3) v
  let r := mul (mul u v3) (Modular.power modulus (mul u v7) ((modulus - 5) / 8))
  let check := mul v (square r)
  let correct := check = u
  let flipped := check = neg u
  let flippedTwice := check = mul (neg u) sqrtMinusOne
  (correct || flipped, abs (if flipped || flippedTwice then mul r sqrtMinusOne else r))

/-- The inverse of the nonnegative square root, under the conventions of `sqrtRatio`. -/
def inverseSqrt (v : Nat) : Bool × Nat := sqrtRatio 1 v

/-- The coordinate that 32 bytes spell, least significant first, without their highest bit. -/
def ofOctets (o : Octets 32) : Nat := o.toNatLittle % Nat.pow 2 255 % modulus

/-- The 32 bytes of a coordinate, least significant first. -/
def toOctets (a : Nat) : Octets 32 := Octets.ofNatLittle 32 a

end PrivateHistogram.Coordinate

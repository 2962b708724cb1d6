/-!
Decimal numbers and the floating-point numbers nearest to them.

Between two powers of two the 64-bit floating-point numbers are evenly spaced. A positive decimal
number `significand * 10^exponent` is read by finding that spacing and rounding the quotient exactly,
so no digit is lost on the way. A float is taken apart the same way: as an integer times a power of
two.
-/

namespace PrivateHistogram

/-- The number `significand * 10^exponent`. -/
structure Decimal where
  significand : Nat
  exponent : Int
deriving DecidableEq, Repr

namespace Decimal

/-- The quotient of two numbers rounded to the nearest integer, a tie to the even one. -/
def roundDiv (n d : Nat) : Nat :=
  let q := n / d
  let twice := 2 * (n % d)
  if twice > d ∨ (twice = d ∧ q % 2 = 1) then q + 1 else q

/-- The float with the given significand and exponent of two, for a significand of at most 53 bits that
has 53 bits or an exponent of `-1074`. Too large an exponent gives infinity. -/
def pack (significand : Nat) (exponent : Int) : Float :=
  let carry := significand = Nat.pow 2 53
  let significand := if carry then Nat.pow 2 52 else significand
  let exponent := if carry then exponent + 1 else exponent
  if exponent > 971 then Float.ofBits 0x7ff0000000000000
  else if significand < Nat.pow 2 52 then Float.ofBits (UInt64.ofNat significand)
  else Float.ofBits (UInt64.ofNat ((exponent + 1075).toNat * Nat.pow 2 52 + (significand - Nat.pow 2 52)))

/-- The float nearest to the quotient of two positive integers. -/
def nearest (n d : Nat) : Float :=
  -- The quotient lies between 2^(e - 1) and 2^(e + 1).
  let e : Int := (n.log2 : Int) - d.log2
  let place (e : Int) : Int := max (e - 52) (-1074)
  let scaled (p : Int) : Nat × Nat := if 0 ≤ p then (n, d * Nat.pow 2 p.toNat) else (n * Nat.pow 2 (-p).toNat, d)
  let fits (p : Int) : Bool := let (a, b) := scaled p; a < b * Nat.pow 2 53
  let p := if fits (place (e - 1)) then place (e - 1) else place e
  let (a, b) := scaled p
  pack (roundDiv a b) p

def digitCount (n : Nat) : Nat := (Nat.toDigits 10 n).length

def toFloat (x : Decimal) : Float :=
  if x.significand = 0 then 0.0
  else
    -- The number lies between 10^(top - 1) and 10^top.
    let top : Int := (digitCount x.significand : Int) + x.exponent
    if top > 400 then Float.ofBits 0x7ff0000000000000
    else if top < -400 then 0.0
    else if 0 ≤ x.exponent then nearest (x.significand * Nat.pow 10 x.exponent.toNat) 1
    else nearest x.significand (Nat.pow 10 (-x.exponent).toNat)

end Decimal

/-- A finite float as `significand * 2^exponent`, without its sign. -/
def floatParts (x : Float) : Nat × Int :=
  let bits : Nat := x.toBits.toNat % Nat.pow 2 63
  let biased : Nat := bits / Nat.pow 2 52
  if biased = 0 then (bits, -1074) else (bits % Nat.pow 2 52 + Nat.pow 2 52, (biased : Int) - 1075)

/-- Whether the sign bit is set, as it is for `-0`. -/
def isNegativeFloat (x : Float) : Bool := Nat.pow 2 63 ≤ x.toBits.toNat

end PrivateHistogram

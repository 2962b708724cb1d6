import PrivateHistogram.Decimal

/-!
The exponential function less one, for negative numbers.

Near zero `exp x` is so close to one that few of its digits are left once the one is taken away, so the
difference is found without it. A number far from zero is first brought near by adding `log 2` a whole
number of times, each of which doubles the exponential. The products that are added to something are not
rounded on their own.
-/

namespace PrivateHistogram.Exponential

/-- How many times the smallest positive float, `2^-1074`, a finite float is. -/
def units (x : Float) : Int :=
  let (significand, exponent) := floatParts x
  let n : Int := significand * Nat.pow 2 (exponent + 1074).toNat
  if isNegativeFloat x then -n else n

/-- The float nearest to `x * y + z`. -/
def multiplyAdd (x y z : Float) : Float :=
  let n := units x * units y + units z * Nat.pow 2 1074
  if n = 0 then 0.0
  else
    let magnitude := Decimal.nearest n.natAbs (Nat.pow 2 2148)
    if n < 0 then -magnitude else magnitude

/-- For a number `x` close to zero, half its square `h` and a small number `e`, where `exp x - 1` is
`x - (x * e - h)`. The quotient `6 / x * ((exp x + 1) / (exp x - 1) - 2 / x)` takes the same value at `x` and
`-x`, so few powers of `h` approximate it. -/
def correction (x : Float) : Float × Float :=
  let half := 0.5 * x
  let h := x * half
  let h2 := h * h
  let low := multiplyAdd h (-3.33333333333331316428e-02) 1.0
  let middle := multiplyAdd h (-7.93650757867487942473e-05) 1.58730158725481460165e-03
  let high := multiplyAdd h (-2.01099218183624371326e-07) 4.00821782732936239552e-06
  let quotient := multiplyAdd (h2 * h2) high (multiplyAdd h2 middle low)
  let t := multiplyAdd (-quotient) half 3.0
  (h, h * ((quotient - t) / multiplyAdd (-x) t 6.0))

/-- The first bits of `log 2`, few enough for the products with the numbers of halvings to be exact. -/
def logTwoHigh : Float := 6.93147180369123816490e-01

def logTwoLow : Float := 1.90821492927058770002e-10

/-- How often the exponential of a number halves one, to the nearest integer. About half of `log 2` below zero
the count begins, and three halves below it is found by division. -/
def halvings (x : Float) : UInt64 :=
  if x > -0.3465735912322998 then 0
  else if x > -1.0397205352783203 then 1
  else (multiplyAdd 1.44269504088896338700e+00 (-x) 0.5).toUInt64

/-- The float that stands for `exp x - 1`, where `x` is negative. Below `-40` it is as good as `-1`. -/
def minusOne (x : Float) : Float :=
  if x < -40.0 then -1.0
  else
    let n := halvings x
    if n = 0 then
      let (h, e) := correction x
      x - multiplyAdd x e (-h)
    else
      let high := x + n.toFloat * logTwoHigh
      let low := -(n.toFloat * logTwoLow)
      let r := high - low
      let rest := (high - r) - low
      let (h, e) := correction r
      let e := multiplyAdd r (e - rest) (-rest) - h
      if n = 1 then 0.5 * (r - e) - 0.5 else (1.0 - (e - r)) / ((1 : UInt64) <<< n).toFloat - 1.0

end PrivateHistogram.Exponential

import PrivateHistogram.Decimal

/-!
The shortest decimal number that reads back as a given float.

The real numbers that round to a float form an interval. For a given number of digits the decimal
numbers are a grid, and if one of them lies in the interval then so does one of the two grid points
next to the float. The first grid that has such a point gives the answer; of two points the nearer
one is taken, and of two equally near the even one.
-/

namespace PrivateHistogram.Decimal

/-- The float and the ends of the interval, scaled to integers: each stands for itself over `scale`. -/
structure Interval where
  (low value high scale : Nat)
  /-- Whether the ends themselves round to the float. -/
  closed : Bool

/-- The interval of the reals that round to `significand * 2^exponent`. The gap below a power of two
is half as wide. -/
def Interval.ofParts (significand : Nat) (exponent : Int) : Interval :=
  let narrow := significand = Nat.pow 2 52 ∧ exponent > -1074
  let up := Nat.pow 2 exponent.toNat
  { low := (4 * significand - (if narrow then 1 else 2)) * up
    value := 4 * significand * up
    high := (4 * significand + 2) * up
    scale := 4 * Nat.pow 2 (-exponent).toNat
    closed := significand % 2 = 0 }

/-- Whether `n * 10^place` lies in the interval. -/
def Interval.contains (i : Interval) (n : Nat) (place : Int) : Bool :=
  let x := n * Nat.pow 10 place.toNat * i.scale
  let unit := Nat.pow 10 (-place).toNat
  if i.closed then i.low * unit ≤ x ∧ x ≤ i.high * unit else i.low * unit < x ∧ x < i.high * unit

/-- The point of the grid `10^place` that lies in the interval nearest to the value, if one does. -/
def Interval.onGrid? (i : Interval) (place : Int) : Option Nat :=
  let numerator := i.value * Nat.pow 10 (-place).toNat
  let denominator := i.scale * Nat.pow 10 place.toNat
  let below := numerator / denominator
  let nearest := roundDiv numerator denominator
  let other := if nearest = below then below + 1 else below
  if i.contains nearest place then some nearest
  else if i.contains other place then some other
  else none

/-- The first grid, from `place` down, that has a point in the interval. -/
def Interval.firstGrid (i : Interval) : (grids : Nat) → (place : Int) → Decimal
  | 0, place => ⟨0, place⟩
  | grids + 1, place =>
    match i.onGrid? place with
    | some n => ⟨n, place⟩
    | none => i.firstGrid grids (place - 1)

/-- The decimal number with the fewest digits that reads back as the magnitude of a finite float. -/
def shortest (x : Float) : Decimal :=
  let (significand, exponent) := floatParts x
  if significand = 0 then ⟨0, 0⟩
  else
    let i := Interval.ofParts significand exponent
    -- The value is below 2 * 10^top, so no coarser grid than 10^top has a point near it.
    let bits : Int := (significand.log2 : Int) + exponent
    let top := bits * 30103 / 100000 + 1
    i.firstGrid 20 top

/-- The digits of a decimal number, the first of them not zero, and the power of ten of the first. -/
def scientific (x : Decimal) : List Char × Int :=
  let digits := Nat.toDigits 10 x.significand
  (digits, x.exponent + digits.length - 1)

/-- The digits with the point after the first, or in front of them with zeros, or after zeros
behind them. -/
def positional (digits : List Char) (first : Int) : String :=
  let zeros (n : Nat) : List Char := List.replicate n '0'
  if first < 0 then String.ofList ("0.".toList ++ zeros (-first - 1).toNat ++ digits)
  else
    let whole := first.toNat + 1
    if digits.length ≤ whole then String.ofList (digits ++ zeros (whole - digits.length))
    else String.ofList (digits.take whole ++ '.' :: digits.drop whole)

/-- A float without an exponent, however large or small, and with a point only where there are digits
behind it. -/
def plain (x : Float) : String :=
  if x.isNaN then "NaN"
  else
    let sign := if isNegativeFloat x then "-" else ""
    if x.isInf then sign ++ "inf"
    else
      let (digits, first) := (shortest x).scientific
      sign ++ positional digits first

end PrivateHistogram.Decimal

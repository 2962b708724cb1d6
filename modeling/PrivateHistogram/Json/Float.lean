import PrivateHistogram.Json.Codec
import PrivateHistogram.Decimal.Shortest

/-!
Floating-point numbers in JSON.

A float is written with the fewest digits that read back, always with a point or an exponent: without
an exponent from `0.00001` to below `10^16`. Infinities and NaN are written as `null`.

Reading is fast rather than exact. As many digits as fit a 64-bit word make up a significand, further
digits are dropped, and the significand is scaled by a power of ten in one or two rounded steps. A
number that overflows is refused; one that underflows is zero.
-/

namespace PrivateHistogram

namespace Numeral

/-- Appends digits to a significand as long as it fits a 64-bit word, counting them. -/
def appendDigits (significand count : Nat) : List Nat → Nat × Nat
  | [] => (significand, count)
  | d :: rest =>
    if 10 * significand + d < UInt64.size then appendDigits (10 * significand + d) (count + 1) rest
    else (significand, count)

def digitList (n : Nat) : List Nat := (Nat.toDigits 10 n).map fun c => c.toNat - 0x30

/-- The float nearest to a power of ten. -/
def powerOfTen (n : Nat) : Float := Decimal.toFloat ⟨1, n⟩

/-- `x * 10^exponent`, in steps for which the power of ten is a float, if it does not overflow. -/
def scale? : (steps : Nat) → (x : Float) → (exponent : Int) → Option Float
  | 0, x, _ => some x
  | steps + 1, x, exponent =>
    if exponent.natAbs ≤ 308 then
      if 0 ≤ exponent then
        let y := x * powerOfTen exponent.natAbs
        if y.isInf then none else some y
      else some (x / powerOfTen exponent.natAbs)
    else if x == 0.0 then some x
    else if 0 ≤ exponent then none
    else scale? steps (x / powerOfTen 308) (exponent + 308)

/-- The magnitude of a number as a float. -/
def magnitude? (n : Numeral) : Option Float :=
  let digits := digitList n.whole
  let (significand, used) := appendDigits 0 0 digits
  let (significand, behind) := appendDigits significand 0 n.fraction
  let x := (UInt64.ofNat significand).toFloat
  let exponent : Int := (digits.length : Int) - used - behind + n.exponent.getD 0
  -- Four divisions by 10^308 turn any significand into zero.
  scale? 6 x exponent

/-- A number as a float, if it does not overflow. -/
def toFloat? (n : Numeral) : Option Float := n.magnitude?.map fun x => if n.negative then -x else x

/-- The number that is written for a finite float. -/
def ofFloat (x : Float) : Numeral :=
  let (chars, first) := (Decimal.shortest x).scientific
  let digits := chars.map fun c => c.toNat - 0x30
  let number (ds : List Nat) := ds.foldl (fun n d => 10 * n + d) 0
  let negative := isNegativeFloat x
  if first < -5 ∨ 15 < first then
    ⟨negative, number (digits.take 1), digits.drop 1, some first⟩
  else if first < 0 then ⟨negative, 0, List.replicate (-first - 1).toNat 0 ++ digits, none⟩
  else
    let whole := first.toNat + 1
    let fraction := digits.drop whole
    ⟨negative, number (digits.take whole) * Nat.pow 10 (whole - digits.length),
      if fraction = [] then [0] else fraction, none⟩

end Numeral

instance : Codec Float where
  encode x := if x.isFinite then .number (.ofFloat x) else .null
  decode?
    | .number n => n.toFloat?
    | _ => none

end PrivateHistogram

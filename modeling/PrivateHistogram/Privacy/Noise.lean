import PrivateHistogram.Decimal.Shortest
import PrivateHistogram.Exponential
import PrivateHistogram.Goldilocks
import PrivateHistogram.Privacy.Geometric
import PrivateHistogram.Privacy.Params

/-!
Noise for the sums of a release.

The noise of one sum is discrete Laplace noise: the difference of two geometric random numbers. It
touches sums only; how many reports there are in a bucket is not hidden.
-/

namespace PrivateHistogram

/-- The discrete Laplace distribution: integers `x` with probabilities in proportion to
`exp (-|x| / scale)`. -/
structure Laplace where
  scale : Float
  /-- The distribution of the two numbers whose difference is taken. -/
  geometric : Geometric

namespace Laplace

/-- The distribution with a given scale, which is positive and finite. Each of the two numbers counts the
failures of an event of probability `1 - exp (-1 / scale)`. -/
def ofScale (scale : Float) : Except Privacy.Error Laplace :=
  if !scale.isFinite || scale ≤ 0.0 then
    .error (.invalidParameter ("discrete Laplace scale must be positive and finite, got " ++ Decimal.plain scale))
  else .ok ⟨scale, .ofChance (-Exponential.minusOne (-1.0 / scale))⟩

/-- The distribution that keeps a budget, where one report can change a sum by `sensitivity`. -/
def ofBudget (b : Privacy.Budget) (sensitivity : UInt64) : Except Privacy.Error Laplace :=
  if sensitivity = 0 then .error (.invalidParameter "sensitivity cannot be zero")
  else ofScale (sensitivity.toFloat / b.epsilon)

/-- A distance as a signed integer of 64 bits, if it is one. -/
def signed? (distance : UInt64) : Option Int := if distance < 0x8000000000000000 then some distance.toNat else none

/-- The difference of two numbers: their distance, and then its sign. Where the distance is no signed integer of 64
bits the difference is the largest or the smallest one. -/
def difference (a b : UInt64) : Int :=
  if b ≤ a then (signed? (a - b)).getD 0x7fffffffffffffff
  else (signed? (b - a)).elim (-0x8000000000000000) fun distance => -distance

def draw {σ : Type} [ByteSource σ] (l : Laplace) (s : σ) : Int × σ :=
  let (a, s) := l.geometric.draw s
  let (b, s) := l.geometric.draw s
  (difference a b, s)

end Laplace

/-- What is added to the sums of a release. -/
inductive Noise
  | none
  | laplace (params : PrivacyParams) (distribution : Laplace)

namespace Noise

/-- Noise for given parameters. -/
def ofParams (p : PrivacyParams) : Except Privacy.Error Noise := do
  p.validate
  let budget ← Privacy.Budget.ofEpsilon p.epsilon
  return .laplace p (← Laplace.ofBudget budget p.sensitivity)

/-- Noise if the parameters ask for it and it is not left out, as it is where exact results are to be
checked. -/
def choose (p : PrivacyParams) (leaveOut : Bool) : Except Privacy.Error Noise := do
  p.validate
  if leaveOut || !p.isEnabled then return .none else ofParams p

/-- The parameters that the noise keeps to. -/
def privacy : Noise → Option PrivacyParams
  | .none => Option.none
  | .laplace p _ => some p

/-- How far one report may change a sum, for noise that hides it. -/
def sensitivity (n : Noise) : Option UInt64 := n.privacy.map PrivacyParams.sensitivity

/-- Adds noise to each sum in turn. -/
def addTo : Noise → List Goldilocks → Draw (List Goldilocks)
  | .none, sums => pure sums
  | .laplace _ l, sums => sums.mapM fun sum => do
    let x ← l.draw
    return sum + .ofInt x

end Noise

end PrivateHistogram

import PrivateHistogram.Helper
import PrivateHistogram.Release

/-!
Both helpers driven through the levels of a hierarchy: at each level only the buckets with enough reports
are refined, and the last level is released.
-/

namespace PrivateHistogram.Helper

variable {S : Suite}

/-- A step of both helpers together. -/
abbrev JointStep (S : Suite) := ExceptT Failure (StateT (Helper S × Helper S) Draw)

def asFirst {α : Type} (x : HelperStep S α) : JointStep S α := fun (a, b) => do
  let (result, a) ← x.run a
  return (result, (a, b))

def asSecond {α : Type} (x : HelperStep S α) : JointStep S α := fun (a, b) => do
  let (result, b) ← x.run b
  return (result, (a, b))

def aggregateBoth (p : RoundParams) : JointStep S (PartialHistogram × PartialHistogram) := do
  let a ← asFirst (aggregate p)
  let b ← asSecond (aggregate p)
  return (a, b)

/-- How the rounds are run. -/
structure DriveParams where
  combine : CombineParams
  ignorePrivacy : Bool
  /-- Only buckets with more reports are refined. -/
  threshold : Nat

/-- The round that refines some buckets, all if none are given, at one level. -/
def DriveParams.round (p : DriveParams) (level : UInt64) (previousLevel : Option UInt64) (buckets : List UInt64) :
    RoundParams :=
  { expand := { levels := [level], selections := [buckets], previousLevel }, combine := p.combine,
    ignorePrivacy := p.ignorePrivacy }

/-- The rounds at some levels, the last of which is released, after a round at `previousLevel` that has
selected `buckets`. -/
def driveFrom (p : DriveParams) (last : UInt64) : List UInt64 → Option UInt64 → List UInt64 →
    JointStep S (List CompleteResult)
  | [], previousLevel, buckets => do
    let (a, b) ← aggregateBoth (p.round last previousLevel buckets)
    (Release.complete a b).mapError Failure.ofAggregation
  | level :: rest, previousLevel, buckets => do
    let (a, b) ← aggregateBoth (p.round level previousLevel buckets)
    let results ← (Release.intermediate a b).mapError Failure.ofAggregation
    match Release.nextBuckets results p.threshold with
    | [] => return []
    | selected => driveFrom p last rest (some level) selected

/-- The rounds at the given levels, the last of which is released. -/
def drive (p : DriveParams) (levels : List UInt64) : JointStep S (List CompleteResult) := do
  match levels.getLast? with
  | none => throw (.ofPointFunction (.invalidParameters "no levels to aggregate"))
  | some last => driveFrom p last levels.dropLast none []

end PrivateHistogram.Helper

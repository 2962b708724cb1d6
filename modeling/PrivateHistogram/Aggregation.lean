import PrivateHistogram.Aggregation.Context
import PrivateHistogram.Aggregation.Params
import PrivateHistogram.PartialHistogram
import PrivateHistogram.PointFunction.Evaluation
import PrivateHistogram.Privacy.Noise

/-!
Aggregation: a helper adds up the expansions of all key halves it holds.

A round expands every half over the buckets of a plan, all at once or segment by segment, adds the
results, puts noise on the sums and collects the labels of the buckets. A round that fails leaves behind
the nodes it has reached, and nothing else.
-/

namespace PrivateHistogram.Aggregation

open PointFunction

variable (F : PointFunction BucketShare)

/-- Makes the key for a joined report: the helper's own half, with a label, and the peer's. -/
def generateKeys (share : AggregationIdShare) (payload : AggregationPayload) (leader : Bool) :
    TryDraw Error (KeyRecord × KeyRecord) := do
  if share.id ≠ payload.id then throw (.join (.reportIdMismatch share.id payload.id))
  let bucketId ← (Join.bucketId share.value F.domain.bitLength).mapError Error.join
  let keys ← ExceptT.adapt Error.pointFunction (F.generate bucketId (KeyRecord.contribution payload leader))
  return KeyRecord.ofKeys bucketId share payload keys

/-- Adds to totals the values of all key halves at the buckets with the numbers `start` up to `stop`. The
parents that cover them are expanded as a whole. -/
def addRange (p : Plan) (start stop : Nat) : List KeyRecord → List NodeCache → Array BucketShare →
    Except PointFunction.Error (Array BucketShare) × List NodeCache
  | record :: records, cache :: caches, totals =>
    let (first, last) := p.parentsCovering start stop
    match F.expandParents record.key p first last cache with
    | .error e => (.error e, cache :: caches)
    | .ok (values, cache) =>
      let offset := first * Nat.pow 2 p.subtreeBits.toNat
      let window := values.extract (start - offset) (stop - offset)
      let (result, caches) := addRange p start stop records caches (totals.zipWith (· + ·) window)
      (result, cache :: caches)
  | _, caches, totals => (.ok totals, caches)

/-- The totals of the segments that start at the given buckets, after those found so far. -/
def addSegments (p : Plan) (length : Nat) (records : List KeyRecord) : List Nat → List NodeCache → Array BucketShare →
    Except PointFunction.Error (Array BucketShare) × List NodeCache
  | [], caches, totals => (.ok totals, caches)
  | start :: rest, caches, totals =>
    let stop := min p.size (start + length)
    match addRange F p start stop records caches (Array.replicate (stop - start) 0) with
    | (.error e, caches) => (.error e, caches)
    | (.ok segment, caches) => addSegments p length records rest caches (totals ++ segment)

def segmentStarts (size length : Nat) : List Nat := (List.range ((size + length - 1) / length)).map (· * length)

/-- The totals of all buckets of a plan with the starts of the segments, and the caches afterwards. -/
def totals (p : Plan) (c : CombineParams) (context : EvaluationContext) :
    Except PointFunction.Error (Array BucketShare × List UInt64) × List NodeCache :=
  if c.direct then
    let (result, caches) := addRange F p 0 p.size context.records context.caches (Array.replicate p.size 0)
    (result.map fun totals => (totals, [0]), caches)
  else
    let starts := segmentStarts p.size c.segmentLength.toNat
    let (result, caches) := addSegments F p c.segmentLength.toNat context.records starts context.caches #[]
    (result.map fun totals => (totals, starts.map UInt64.ofNat), caches)

/-- The labels whose buckets are among those of a plan, by their full bucket identifiers. -/
def planLabels (p : Plan) (labels : List BucketLabel) : List (UInt64 × BucketLabel) :=
  let depth := F.domain.bitLength - p.targetBits
  let buckets := Frontier.ofPlan p
  (labels.filter fun l => buckets.contains (PartialHistogram.bucketOf depth l.bucketId)).map fun l => (l.bucketId, l)

/-- The plan of a round, if the parameters and the context are in order. -/
def planRound (context : EvaluationContext) (e : Expansion) (c : CombineParams) : Except Error Plan := do
  c.validate
  if context.caches.length ≠ context.records.length then
    throw (.invalidContext s!"{context.caches.length} caches for {context.records.length} key halves")
  (e.plan F.domain.hierarchy context.previous).mapError Error.pointFunction

def histogram (p : Plan) (n : Noise) (labels : List BucketLabel) (totals : Array BucketShare) (boundaries : List UInt64) :
    TryDraw Error PartialHistogram := do
  let sums ← n.addTo (totals.toList.map BucketShare.sum)
  let shares := totals.toList.zipWith (fun share sum => { share with sum }) sums
  match Labels.addAll (planLabels F p labels) ∅ with
  | (.error e, _) => throw e
  | (.ok (), labels) =>
    return { bucketBits := p.targetBits, bitLength := F.domain.bitLength, labels, boundaries,
             buckets := .ofList (p.buckets.toList.zip shares), privacy := n.privacy }

/-- One round: the histogram over the buckets of an expansion, and the context afterwards. -/
def aggregate (e : Expansion) (c : CombineParams) (n : Noise) (context : EvaluationContext) :
    Draw (Except Error PartialHistogram × EvaluationContext) := do
  match planRound F context e c with
  | .error e => return (.error e, context)
  | .ok p =>
    match totals F p c context with
    | (.error e, caches) => return (.error (.pointFunction e), { context with caches })
    | (.ok (totals, boundaries), caches) =>
      match ← (histogram F p n context.labels totals boundaries).run with
      | .error e => return (.error e, { context with caches })
      | .ok h => return (.ok h, { context with caches, previousLevel := some p.level, expanded := p.buckets })

end PrivateHistogram.Aggregation

import PrivateHistogram.PartialHistogram
import PrivateHistogram.SecretSharing

/-!
The release: the histograms of both helpers put together.

At the last level every labelled bucket gets a result, with the bucket key from the shares of both
helpers. At a level in between only sums and counts are known; the buckets with enough reports are the
ones to refine next.
-/

namespace PrivateHistogram

/-- A released bucket. -/
structure CompleteResult where
  bucketKey : Bytes
  aggregationId : Octets 32
  sum : Int
  count : Nat
deriving DecidableEq

/-- A bucket of a level in between. -/
structure BucketResult where
  bucket : UInt64
  sum : Int
  count : Nat
deriving DecidableEq

namespace Release

def toInt64? (j : Json) : Option Int := j.toInt?.filter fun v => -0x8000000000000000 ≤ v ∧ v < 0x8000000000000000

def toNat64? (j : Json) : Option Nat := j.toNat?.filter fun n => n < UInt64.size

end Release

instance : Codec CompleteResult where
  encode r :=
    .record [("bucket_key", .hex r.bucketKey), ("aggregation_id", Codec.encode r.aggregationId), ("sum", .int r.sum),
      ("count", .nat r.count)]
  decode? j := do
    let [bucketKey, aggregationId, sum, count] ← j.fields? ["bucket_key", "aggregation_id", "sum", "count"] | none
    some { bucketKey := ← bucketKey.bind Json.toHex?, aggregationId := ← Codec.field? aggregationId,
           sum := ← sum.bind Release.toInt64?, count := ← count.bind Release.toNat64? }

instance : Codec BucketResult where
  encode r := .record [("prefix", Codec.encode r.bucket), ("sum", .int r.sum), ("count", .nat r.count)]
  decode? j := do
    let [bucket, sum, count] ← j.fields? ["prefix", "sum", "count"] | none
    some { bucket := ← Codec.field? bucket, sum := ← sum.bind Release.toInt64?, count := ← count.bind Release.toNat64? }

namespace Release

open Aggregation (Error)

/-- A sum with noise, brought into the range that so many reports can have. -/
def clip (sensitivity : UInt64) (count : Nat) (sum : Int) : Int :=
  max 0 (min sum (min 0x7fffffffffffffff (count * sensitivity.toNat : Nat)))

/-- The result for one labelled bucket. -/
def completeResult (a b : PartialHistogram) (bucket : UInt64) : Except Error CompleteResult := do
  match a.labels[bucket]?, b.labels[bucket]? with
  | some la, some lb =>
    if la.reportId ≠ lb.reportId ∨ la.aggregationId ≠ lb.aggregationId then throw (.labelMismatch bucket)
    let total := a.share bucket + b.share bucket
    let count := total.count.val
    let sum := match a.privacy.or b.privacy with
      | some p => clip p.sensitivity count total.sum.toInt
      | none => total.sum.toInt
    let bucketKey ← (SecretSharing.combineBytes la.keyShare lb.keyShare).mapError Error.secretShare
    return { bucketKey, aggregationId := la.aggregationId, sum, count }
  | _, _ => throw (.missingLabel bucket)

/-- The results for all labelled buckets of the last level, in the order of the buckets. -/
def complete (a b : PartialHistogram) : Except Error (List CompleteResult) := do
  a.checkCompatible b
  if a.bucketBits ≠ a.bitLength then
    throw (.incompatible s!"histograms cover {a.bucketBits.toNat}-bit prefixes of {a.bitLength.toNat}-bit buckets")
  (increasing (a.labels.keys ++ b.labels.keys)).mapM (completeResult a b)

/-- The result for one bucket of a level in between. -/
def bucketResult (a b : PartialHistogram) (bucket : UInt64) : BucketResult :=
  let total := a.share bucket + b.share bucket
  { bucket, sum := total.sum.toInt, count := total.count.val }

/-- The results for all buckets of a level in between, in the order of the buckets. -/
def intermediate (a b : PartialHistogram) : Except Error (List BucketResult) := do
  a.checkCompatible b
  return (increasing (a.buckets.keys ++ b.buckets.keys)).map (bucketResult a b)

/-- The buckets with more than `threshold` reports, in order. -/
def nextBuckets (results : List BucketResult) (threshold : Nat) : List UInt64 :=
  ((results.filter fun r => threshold < r.count).map BucketResult.bucket).mergeSort fun a b => a ≤ b

end Release

end PrivateHistogram

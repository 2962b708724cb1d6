import PrivateHistogram.Aggregation.Error
import PrivateHistogram.Increasing
import PrivateHistogram.KeyRecord
import PrivateHistogram.Room
import Std.Data.ExtTreeMap.Lemmas

/-!
Partial histograms: a helper's share of each bucket of one expansion.

A bucket that is not there counts as a share of zero. The label of a full bucket identifier is that of
its smallest report, so both helpers choose the same report. Histograms that workers have found over
different key halves of one helper can be added up, and a histogram can be split by its buckets.
-/

namespace PrivateHistogram

/-- Labels by the full identifier of their bucket. -/
abbrev Labels := Std.ExtTreeMap UInt64 BucketLabel

/-- A helper's share of a histogram. -/
structure PartialHistogram where
  bucketBits : UInt32
  /-- The bit length of full bucket identifiers. -/
  bitLength : UInt32
  buckets : Std.ExtTreeMap UInt64 BucketShare
  labels : Labels
  /-- The number of the first bucket of each segment in which the buckets were added up. -/
  boundaries : List UInt64
  /-- The privacy parameters of the noise in the sums, if there is any. -/
  privacy : Option PrivacyParams

namespace Labels

/-- Adds a label to the bucket it is for: the label of the smallest report stays. Labels of one bucket
have one aggregation identifier, since otherwise reports of different bucket keys would be added up. -/
def add (bucket : UInt64) (label : BucketLabel) : Attempt Labels Aggregation.Error Unit := fun labels =>
  match labels[bucket]? with
  | none => (.ok (), labels.insert bucket label)
  | some held =>
    if held.aggregationId ≠ label.aggregationId then (.error (.bucketCollision bucket), labels)
    else if (compare held.reportId label.reportId).isLE then (.ok (), labels)
    else (.ok (), labels.insert bucket label)

def addAll (list : List (UInt64 × BucketLabel)) : Attempt Labels Aggregation.Error Unit :=
  list.forM fun (bucket, label) => add bucket label

end Labels

namespace PartialHistogram

def share (h : PartialHistogram) (bucket : UInt64) : BucketShare := h.buckets[bucket]?.getD 0

/-- Refuses to put histograms of different bit lengths together. -/
def checkCompatible (a b : PartialHistogram) : Except Aggregation.Error Unit :=
  if a.bucketBits ≠ b.bucketBits ∨ a.bitLength ≠ b.bitLength then
    .error (.incompatible (s!"{a.bucketBits.toNat}/{a.bitLength.toNat}-bit prefixes vs " ++
      s!"{b.bucketBits.toNat}/{b.bitLength.toNat}-bit prefixes"))
  else .ok ()

/-- The shares of two histograms added up. -/
def addBuckets (a b : Std.ExtTreeMap UInt64 BucketShare) : Std.ExtTreeMap UInt64 BucketShare :=
  b.foldl (fun sums bucket share => sums.alter bucket fun held => some (held.getD 0 + share)) a

/-- Adds a histogram over other key halves of the same helper. -/
def accumulate (other : PartialHistogram) : Attempt PartialHistogram Aggregation.Error Unit := fun h =>
  match h.checkCompatible other with
  | .error e => (.error e, h)
  | .ok () =>
    if h.privacy != other.privacy then (.error (.incompatible "different privacy parameters"), h)
    else
      let buckets := addBuckets h.buckets other.buckets
      match Labels.addAll other.labels.toList h.labels with
      | (.error e, labels) => (.error e, { h with buckets, labels })
      | (.ok (), labels) =>
        (.ok (), { h with buckets, labels, boundaries := increasing (h.boundaries ++ other.boundaries) })

def shardOf (count bucket : UInt64) : UInt64 := bucket % count

/-- The bucket that a full identifier is in. -/
def bucketOf (depth : UInt32) (id : UInt64) : UInt64 := if depth < 64 then id >>> depth.toUInt64 else 0

/-- How many bytes a histogram takes in a list of histograms: 8 for the bit lengths, and 24 each for both maps,
for the boundaries and for the privacy parameters. What the maps and the boundaries hold is elsewhere. -/
def size : Nat := 104

/-- Splits a histogram into `count` histograms over different buckets. Each label goes with the bucket it
is in. -/
def shards (h : PartialHistogram) (count : UInt64) : Except Aggregation.Error (List PartialHistogram) :=
  if count = 0 then .error .invalidShardCount
  else if h.bitLength < h.bucketBits then
    .error (.incompatible s!"{h.bucketBits.toNat}-bit prefixes of {h.bitLength.toNat}-bit buckets")
  else if !Room.holds count.toNat size then .error (.capacityOverflow count)
  else
    let depth := h.bitLength - h.bucketBits
    .ok <| (List.range count.toNat).map fun shard =>
      { h with
        buckets := h.buckets.filter fun bucket _ => (shardOf count bucket).toNat = shard
        labels := h.labels.filter fun id _ => (shardOf count (bucketOf depth id)).toNat = shard }

instance : Codec PartialHistogram where
  encode h :=
    .record [("prefix_bits", Codec.encode h.bucketBits), ("bit_length", Codec.encode h.bitLength),
      ("buckets", Codec.encode h.buckets), ("labels", Codec.encode h.labels),
      ("segment_boundaries", Codec.encode h.boundaries), ("privacy", Codec.encode h.privacy)]
  decode? j := do
    let [bucketBits, bitLength, buckets, labels, boundaries, privacy] ←
      j.fields? ["prefix_bits", "bit_length", "buckets", "labels", "segment_boundaries", "privacy"] | none
    some { bucketBits := ← Codec.field? bucketBits, bitLength := ← Codec.field? bitLength,
           buckets := ← Codec.field? buckets, labels := ← Codec.field? labels,
           boundaries := ← Codec.field? boundaries, privacy := ← Codec.fieldD? none privacy }

end PartialHistogram

end PrivateHistogram

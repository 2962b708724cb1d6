import PrivateHistogram.BucketShare
import PrivateHistogram.Join
import PrivateHistogram.PointFunction.Key

/-!
Key halves as the helpers hold them.

For a joined report each helper makes a key for the report's bucket, whose value is the helper's share of
the report's value, and a count of one if the helper is the leader. It keeps the first half, with a label
from which the bucket key can be put together again, and hands the second half to its peer.
-/

namespace PrivateHistogram

/-- Ties a bucket to one of the reports in it. -/
structure BucketLabel where
  bucketId : UInt64
  aggregationId : Octets 32
  reportId : ReportId
  /-- The helper's share of the bucket key of the report. -/
  keyShare : Bytes
deriving DecidableEq

instance : Codec BucketLabel where
  encode l :=
    .record [("bucket_id", Codec.encode l.bucketId), ("aggregation_id", Codec.encode l.aggregationId),
      ("report_id", Codec.encode l.reportId), ("key_share", .hex l.keyShare)]
  decode? j := do
    let [bucketId, aggregationId, reportId, keyShare] ←
      j.fields? ["bucket_id", "aggregation_id", "report_id", "key_share"] | none
    some { bucketId := ← Codec.field? bucketId, aggregationId := ← Codec.field? aggregationId,
           reportId := ← Codec.field? reportId, keyShare := ← keyShare.bind Json.toHex? }

/-- A key half, with a label if the helper that holds it has made the key. -/
structure KeyRecord where
  reportId : ReportId
  key : PointFunction.KeyHalf BucketShare
  label : Option BucketLabel
deriving DecidableEq

instance : Codec KeyRecord where
  encode r :=
    .record [("report_id", Codec.encode r.reportId), ("key", Codec.encode r.key), ("label", Codec.encode r.label)]
  decode? j := do
    let [reportId, key, label] ← j.fields? ["report_id", "key", "label"] | none
    some { reportId := ← Codec.field? reportId, key := ← Codec.field? key, label := ← Codec.fieldD? none label }

namespace KeyRecord

/-- What a helper puts into a bucket for a report. -/
def contribution (p : AggregationPayload) (leader : Bool) : BucketShare :=
  ⟨p.valueShare, if leader then 1 else 0⟩

/-- The records for the two halves of a key: the helper's own, with a label, and the peer's. -/
def ofKeys (bucketId : UInt64) (share : AggregationIdShare) (p : AggregationPayload)
    (keys : PointFunction.KeyHalf BucketShare × PointFunction.KeyHalf BucketShare) : KeyRecord × KeyRecord :=
  let label : BucketLabel :=
    { bucketId, aggregationId := share.value, reportId := share.id, keyShare := p.keyShare }
  ({ reportId := share.id, key := keys.1, label := some label }, { reportId := share.id, key := keys.2, label := none })

end KeyRecord

end PrivateHistogram

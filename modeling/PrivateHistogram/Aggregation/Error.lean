import PrivateHistogram.Join
import PrivateHistogram.PointFunction.Error
import PrivateHistogram.Privacy.Params

/-!
What can go wrong when key halves are added up and when histograms are put together.
-/

namespace PrivateHistogram.Aggregation

/-- Why an aggregation or a release fails. -/
inductive Error
  | pointFunction (cause : PointFunction.Error)
  | join (cause : Join.Error)
  | secretShare (cause : SecretSharing.Error)
  | privacy (cause : Privacy.Error)
  | invalidContext (detail : String)
  | incompatible (detail : String)
  /-- Only one helper has labelled the bucket. -/
  | missingLabel (bucket : UInt64)
  /-- Reports of different bucket keys are in the bucket. -/
  | bucketCollision (bucket : UInt64)
  /-- The helpers have labelled the bucket with different reports. -/
  | labelMismatch (bucket : UInt64)
  /-- A histogram cannot be split into no shards. -/
  | invalidShardCount
  /-- No list holds so many shards. -/
  | capacityOverflow (shards : UInt64)
deriving DecidableEq

def Error.message : Error → String
  | .pointFunction cause => "DPF error: " ++ cause.message
  | .join cause => "join error: " ++ cause.message
  | .secretShare cause => "secret sharing error: " ++ cause.message
  | .privacy cause => "privacy error: " ++ cause.message
  | .invalidContext detail => "invalid evaluation context: " ++ detail
  | .incompatible detail => "incompatible histograms: " ++ detail
  | .missingLabel bucket => s!"bucket {bucket.toNat} is labelled by only one helper"
  | .bucketCollision bucket => s!"distinct aggregation ids collide in bucket {bucket.toNat}"
  | .labelMismatch bucket => s!"helpers disagree on the label of bucket {bucket.toNat}"
  | .invalidShardCount => "shard count must be positive"
  | .capacityOverflow shards => s!"capacity overflow: {shards.toNat} shards"

instance : ToString Error := ⟨Error.message⟩

end PrivateHistogram.Aggregation

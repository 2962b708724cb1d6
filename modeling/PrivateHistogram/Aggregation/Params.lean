import PrivateHistogram.Aggregation.Error

/-!
How a helper adds up its key halves, and the privacy of what it releases.
-/

namespace PrivateHistogram

structure CombineParams where
  /-- Whether all buckets are added up at once, or segment by segment. -/
  direct : Bool
  /-- The number of buckets of a segment. -/
  segmentLength : UInt64
  epsilon : Float
  sensitivity : UInt64

namespace CombineParams

/-- All buckets at once, and no noise. -/
def default : CombineParams :=
  { direct := true, segmentLength := 32768, epsilon := PrivacyParams.default.epsilon,
    sensitivity := PrivacyParams.default.sensitivity }

def privacy (c : CombineParams) : PrivacyParams := ⟨c.epsilon, c.sensitivity⟩

/-- Refuses segments of no buckets and privacy parameters that are out of range. -/
def validate (c : CombineParams) : Except Aggregation.Error Unit :=
  if !c.direct && c.segmentLength == 0 then .error (.pointFunction .invalidSegmentLength)
  else c.privacy.validate.mapError .privacy

/-- Every field may be left out. -/
instance : Codec CombineParams where
  encode c :=
    .record [("direct_combine", Codec.encode c.direct), ("segment_length", Codec.encode c.segmentLength),
      ("epsilon", Codec.encode c.epsilon), ("l1_sensitivity", Codec.encode c.sensitivity)]
  decode? j := do
    let [direct, segmentLength, epsilon, sensitivity] ←
      j.someFields? ["direct_combine", "segment_length", "epsilon", "l1_sensitivity"] | none
    some { direct := ← Codec.fieldD? default.direct direct,
           segmentLength := ← Codec.fieldD? default.segmentLength segmentLength,
           epsilon := ← Codec.fieldD? default.epsilon epsilon,
           sensitivity := ← Codec.fieldD? default.sensitivity sensitivity }

end CombineParams

end PrivateHistogram

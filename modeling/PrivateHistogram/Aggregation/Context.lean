import PrivateHistogram.KeyRecord
import PrivateHistogram.PointFunction.Cache

/-!
Evaluation contexts: the key halves of a helper, opened, and how far they have been expanded.

A later round starts from the nodes that earlier rounds have reached, and refines buckets that the last
of them has put out. A context can be stored between rounds, so nothing is taken for granted of one that
has been read.
-/

namespace PrivateHistogram

/-- Key halves and the progress of their expansion. -/
structure EvaluationContext where
  records : List KeyRecord
  /-- The nodes that have been reached, for each key half. -/
  caches : List PointFunction.NodeCache
  previousLevel : Option UInt64
  expanded : Array UInt64
deriving DecidableEq

namespace EvaluationContext

/-- A context in which nothing has been expanded. -/
def ofRecords (records : List KeyRecord) : EvaluationContext :=
  { records, caches := records.map fun _ => .empty, previousLevel := none, expanded := #[] }

/-- Where the last round stopped. -/
def previous (c : EvaluationContext) : Option (UInt64 × Array UInt64) :=
  c.previousLevel.map fun level => (level, c.expanded)

/-- The labels of the reports for which this helper has made the key. -/
def labels (c : EvaluationContext) : List BucketLabel := c.records.filterMap KeyRecord.label

instance : Codec EvaluationContext where
  encode c :=
    .record [("records", Codec.encode c.records), ("caches", Codec.encode c.caches),
      ("previous_level", Codec.encode c.previousLevel), ("expanded_prefixes", Codec.encode c.expanded)]
  decode? j := do
    let [records, caches, previousLevel, expanded] ←
      j.fields? ["records", "caches", "previous_level", "expanded_prefixes"] | none
    some { records := ← Codec.field? records, caches := ← Codec.field? caches,
           previousLevel := ← Codec.fieldD? none previousLevel, expanded := ← Codec.field? expanded }

end EvaluationContext

end PrivateHistogram

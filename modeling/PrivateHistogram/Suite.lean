import PrivateHistogram.BucketShare
import PrivateHistogram.KeyGroup
import PrivateHistogram.Transport

/-!
The cryptography a run relies on.

Everything from the keys of a helper up to a whole run is written for any suite. Results are exact for a
lawful one, whatever the seeds are expanded to.
-/

namespace PrivateHistogram

/-- The group of bucket keys, the scheme that seals messages, and how the seeds of point functions are
expanded. -/
structure Suite where
  group : KeyGroup
  transport : Transport
  generator : PointFunction.Generator BucketShare

/-- What a run relies on to be correct. -/
structure Suite.Lawful (S : Suite) : Prop where
  group : S.group.Lawful
  transport : S.transport.Lawful

end PrivateHistogram

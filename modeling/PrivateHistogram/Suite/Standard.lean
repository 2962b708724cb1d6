import PrivateHistogram.Suite
import PrivateHistogram.Transport.Hpke

/-!
The cryptography in use: the Ristretto group, hybrid public key encryption, and seeds expanded by hashed
streams.
-/

namespace PrivateHistogram

def Suite.standard : Suite := ⟨.ristretto, .hpke, .standard BucketShare⟩

end PrivateHistogram

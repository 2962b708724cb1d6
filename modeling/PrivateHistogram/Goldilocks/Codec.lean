import PrivateHistogram.Goldilocks
import PrivateHistogram.Json.Codec

/-!
Field elements in JSON: the integer below the modulus that stands for the element. An integer that is
not below the modulus is refused, not reduced.
-/

namespace PrivateHistogram

instance : Codec Goldilocks where
  encode a := .nat a.val
  decode? j := j.toNat?.bind Goldilocks.ofNat?

instance : LawfulCodec Goldilocks where
  decode_encode a := by
    simp [Codec.decode?, Codec.encode, Json.nat, Json.toNat?, Goldilocks.ofNat?, a.val_lt]

end PrivateHistogram

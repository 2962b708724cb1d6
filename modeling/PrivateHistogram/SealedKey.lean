import PrivateHistogram.KeyRecord

/-!
Key halves on their way, sealed to the helper that will evaluate them.
-/

namespace PrivateHistogram

/-- A key half sealed to a helper. -/
structure SealedKey where
  reportId : ReportId
  ciphertext : Sealed
deriving DecidableEq

namespace SealedKey

instance : Codec SealedKey where
  encode k := .record [("report_id", Codec.encode k.reportId), ("ciphertext", Codec.encode k.ciphertext)]
  decode? j := do
    let [reportId, ciphertext] ← j.fields? ["report_id", "ciphertext"] | none
    some { reportId := ← Codec.field? reportId, ciphertext := ← Codec.field? ciphertext }

/-- What a key half is sealed under. -/
def info (id : ReportId) : Bytes := Bytes.ofText "conversion-aggregation dpf key" ++ id.bytes.toBytes

/-- Seals a key half to the helper that will evaluate it. -/
def ofRecord (T : Transport) (r : KeyRecord) (recipient : Transport.PublicKey) : TryDraw Transport.Error SealedKey := do
  let ciphertext ← T.sealTo recipient (info r.reportId) (Codec.toBytes r)
  return { reportId := r.reportId, ciphertext }

end SealedKey

end PrivateHistogram

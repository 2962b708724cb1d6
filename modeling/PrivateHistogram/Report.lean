import PrivateHistogram.Conversion
import PrivateHistogram.Goldilocks.Codec
import PrivateHistogram.Keys
import PrivateHistogram.SecretSharing

/-!
Reports: a client's conversion split into one half for each helper.

The half of a helper holds a share of the bucket key, a share of the value, and the bucket key as a
group element encrypted to the *other* helper. It is sealed to its helper under the identifier of the
report, so a half that is opened under another identifier is refused.
-/

namespace PrivateHistogram

/-- A random identifier that the two halves of a report have in common. -/
structure ReportId where
  bytes : Octets 16
deriving DecidableEq

namespace ReportId

def toText (id : ReportId) : String := id.bytes.toHex

def describe (id : ReportId) : String := s!"ReportId({id.toText})"

def draw : Draw ReportId := fun tape =>
  let (bytes, rest) := tape.octets 16
  (⟨bytes⟩, rest)

instance : Codec ReportId where
  encode id := Codec.encode id.bytes
  decode? j := (Codec.decode? j).map ReportId.mk

/-- Identifiers are ordered as their bytes, the first byte counting most. -/
instance : Ord ReportId := ⟨fun a b => compare a.bytes b.bytes⟩

instance : Std.TransOrd ReportId where
  eq_swap := Std.OrientedOrd.eq_swap (α := Octets 16)
  isLE_trans := Std.TransOrd.isLE_trans (α := Octets 16)

instance : Std.LawfulEqOrd ReportId where
  eq_of_compare {a b} h := by
    have : a.bytes = b.bytes := Std.LawfulEqOrd.eq_of_compare h
    cases a
    cases b
    congr

end ReportId

namespace Report

/-- Why a conversion cannot be split or a report cannot be opened. -/
inductive Error
  | transport (cause : Transport.Error)
  | secretShare (cause : SecretSharing.Error)
  /-- What was sealed is no half of a report. -/
  | malformedPayload
  | invalidConversion (detail : String)
deriving DecidableEq, Repr

def Error.message : Error → String
  | .transport cause => "transport encryption error: " ++ cause.message
  | .secretShare cause => "secret sharing error: " ++ cause.message
  | .malformedPayload => "malformed report payload"
  | .invalidConversion detail => "invalid raw conversion: " ++ detail

instance : ToString Error := ⟨Error.message⟩

/-- What a report is sealed under. -/
def info (id : ReportId) : Bytes := Bytes.ofText "conversion-aggregation partial report" ++ id.bytes.toBytes

/-- What is sealed to a helper. -/
structure Payload where
  /-- The bucket key as a group element, encrypted to the other helper. -/
  encryptedKey : ElGamal.Ciphertext
  keyShare : Bytes
  valueShare : Goldilocks
deriving DecidableEq

instance : Codec Payload where
  encode p :=
    .record [("encrypted_key", Codec.encode p.encryptedKey), ("key_share", .hex p.keyShare),
      ("value_share", Codec.encode p.valueShare)]
  decode? j := do
    let [encryptedKey, keyShare, valueShare] ← j.fields? ["encrypted_key", "key_share", "value_share"] | none
    some { encryptedKey := ← Codec.field? encryptedKey, keyShare := ← keyShare.bind Json.toHex?,
           valueShare := ← Codec.field? valueShare }

end Report

/-- One helper's half of a report, sealed to it. -/
structure PartialReport where
  id : ReportId
  payload : Sealed
deriving DecidableEq

instance : Codec PartialReport where
  encode r := .record [("report_id", Codec.encode r.id), ("encrypted_payload", Codec.encode r.payload)]
  decode? j := do
    let [id, payload] ← j.fields? ["report_id", "encrypted_payload"] | none
    some { id := ← Codec.field? id, payload := ← Codec.field? payload }

/-- One helper's half of a report, opened. The bucket key is still encrypted to the other helper. -/
structure DecryptedReport extends Report.Payload where
  id : ReportId
deriving DecidableEq

instance : Codec DecryptedReport where
  encode r :=
    .record [("report_id", Codec.encode r.id), ("encrypted_key", Codec.encode r.encryptedKey),
      ("key_share", .hex r.keyShare), ("value_share", Codec.encode r.valueShare)]
  decode? j := do
    let [id, encryptedKey, keyShare, valueShare] ←
      j.fields? ["report_id", "encrypted_key", "key_share", "value_share"] | none
    some { id := ← Codec.field? id, encryptedKey := ← Codec.field? encryptedKey,
           keyShare := ← keyShare.bind Json.toHex?, valueShare := ← Codec.field? valueShare }

namespace Report

/-- The conversion that a line describes, as the first step of a report. -/
def readLine (line : String) : Except Error Conversion :=
  (Conversion.parse line).mapError fun cause => .invalidConversion cause.message

variable (S : Suite)

/-- The half of a report for `owner`, whose peer is the other helper. -/
def sealHalf (id : ReportId) (key : S.group.Point) (owner peer : PublicInfo S) (keyShare : Bytes) (valueShare : Nat) :
    TryDraw Error PartialReport := do
  let encryptedKey ← ElGamal.encrypt S.group peer.elGamal key
  let payload : Payload := { encryptedKey, keyShare, valueShare := .ofNat valueShare }
  let sealed ← ExceptT.adapt Error.transport (S.transport.sealTo owner.transport (info id) (Codec.toBytes payload))
  return { id, payload := sealed }

/-- Splits a conversion into the halves for two helpers. -/
def split (c : Conversion) (one two : PublicInfo S) : TryDraw Error (PartialReport × PartialReport) := do
  let id ← ReportId.draw
  let key := S.group.ofBytes c.bucketKey
  let (key1, key2) ← ExceptT.adapt Error.secretShare (SecretSharing.splitBytes c.bucketKey)
  let (value1, value2) ←
    ExceptT.adapt Error.secretShare (SecretSharing.splitInt c.value.toNat Goldilocks.modulus)
  let half1 ← sealHalf S id key one two key1 value1
  let half2 ← sealHalf S id key two one key2 value2
  return (half1, half2)

/-- Opens a helper's own half of a report. -/
def decrypt (r : PartialReport) (k : Transport.PrivateKey) : Except Error DecryptedReport := do
  let bytes ← (S.transport.openWith k (info r.id) r.payload).mapError Error.transport
  let some (payload : Payload) := Codec.ofBytes? bytes | throw .malformedPayload
  return { payload with id := r.id }

end Report

end PrivateHistogram

import PrivateHistogram.Hash.Keccak
import PrivateHistogram.Report

/-!
The join: how two helpers find out which reports have the same bucket key without either of them
learning the key.

A helper multiplies the encrypted bucket key it holds by its secret and sends it to the peer, who can
decrypt it. The peer multiplies once more by its own secret. Both orders give the same group element,
and its hash is the aggregation identifier of the report: equal keys have equal identifiers, and no
helper can compute the identifier of a key alone.
-/

namespace PrivateHistogram

namespace Join

inductive Error
  | elGamal (cause : ElGamal.Error)
  | reportIdMismatch (expected got : ReportId)
  /-- The join of a report is not at the point where the step is due. -/
  | unexpectedState (id : ReportId) (action state : String)
  /-- Bucket identifiers have from 1 to 64 bits. -/
  | invalidBitLength (bits : UInt32)
deriving DecidableEq

def Error.message : Error → String
  | .elGamal cause => "group operation failed: " ++ cause.message
  | .reportIdMismatch expected got => s!"report id mismatch: expected {expected.toText}, got {got.toText}"
  | .unexpectedState id action state => s!"report {id.toText}: cannot {action} in state {state}"
  | .invalidBitLength bits => s!"invalid bucket bit length {bits.toNat}"

instance : ToString Error := ⟨Error.message⟩

/-- What is hashed before a blinded bucket key. -/
def aggregationIdTag : Bytes := Bytes.ofText "conversion-aggregation aggregation id"

/-- The hash of a bucket key that both helpers have blinded. -/
def aggregationId (blinded : Octets 32) : Octets 32 :=
  (Hash.sha3_256 (aggregationIdTag ++ blinded.toBytes)).fit 32

end Join

/-- A bucket key that one helper has blinded, encrypted to the other. -/
structure ExponentiatedKey where
  id : ReportId
  ciphertext : ElGamal.Ciphertext
deriving DecidableEq

instance : Codec ExponentiatedKey where
  encode k := .record [("report_id", Codec.encode k.id), ("ciphertext", Codec.encode k.ciphertext)]
  decode? j := do
    let [id, ciphertext] ← j.fields? ["report_id", "ciphertext"] | none
    some { id := ← Codec.field? id, ciphertext := ← Codec.field? ciphertext }

/-- The aggregation identifier of a report as one helper has found it. -/
structure AggregationIdShare where
  id : ReportId
  value : Octets 32
deriving DecidableEq

namespace AggregationIdShare

instance : Codec AggregationIdShare where
  encode s := .record [("report_id", Codec.encode s.id), ("value", Codec.encode s.value)]
  decode? j := do
    let [id, value] ← j.fields? ["report_id", "value"] | none
    some { id := ← Codec.field? id, value := ← Codec.field? value }

/-- The aggregation identifier, if both helpers have found the same. -/
def combine (a b : AggregationIdShare) : Except Join.Error (Option (Octets 32)) :=
  if a.id ≠ b.id then .error (.reportIdMismatch a.id b.id)
  else .ok (if a.value = b.value then some a.value else none)

end AggregationIdShare

namespace Join

/-- The bucket that an aggregation identifier falls into: its leading `bits` bits. -/
def bucketId (value : Octets 32) (bits : UInt32) : Except Error UInt64 :=
  if bits < 1 ∨ 64 < bits then .error (.invalidBitLength bits)
  else .ok (UInt64.ofNat (Bytes.toNatBig (value.toBytes.take 8) >>> (64 - bits.toNat)))

end Join

/-- What a helper keeps of a report once its aggregation identifier is known. -/
structure AggregationPayload where
  id : ReportId
  valueShare : Goldilocks
  keyShare : Bytes
deriving DecidableEq

instance : Codec AggregationPayload where
  encode p :=
    .record [("report_id", Codec.encode p.id), ("value_share", Codec.encode p.valueShare), ("key_share", .hex p.keyShare)]
  decode? j := do
    let [id, valueShare, keyShare] ← j.fields? ["report_id", "value_share", "key_share"] | none
    some { id := ← Codec.field? id, valueShare := ← Codec.field? valueShare, keyShare := ← keyShare.bind Json.toHex? }

namespace Join

variable (S : Suite)

/-- First round: the bucket key of a report blinded with the own secret, for the peer. -/
def exponentiate (r : DecryptedReport) (own : ElGamal.Secret) (peer : ElGamal.PublicKey S.group) :
    TryDraw Error ExponentiatedKey := do
  let ciphertext ←
    ExceptT.adapt Error.elGamal (ElGamal.exponentiateAndRerandomize S.group r.encryptedKey own peer)
  return { id := r.id, ciphertext }

/-- Second round: the aggregation identifier of a report, from the key that the peer has blinded. -/
def rekey (peerKey : ExponentiatedKey) (r : DecryptedReport) (key : ElGamal.PrivateKey) (own : ElGamal.Secret) :
    Except Error (AggregationIdShare × AggregationPayload) := do
  if peerKey.id ≠ r.id then throw (.reportIdMismatch r.id peerKey.id)
  let blinded ← (ElGamal.decrypt S.group key peerKey.ciphertext).mapError Error.elGamal
  let value := aggregationId (S.group.encode (own.apply S.group blinded))
  return ({ id := r.id, value }, { id := r.id, valueShare := r.valueShare, keyShare := r.keyShare })

end Join

/-- How far the join of one report has come at one helper. -/
inductive JoinState
  | decrypted (report : DecryptedReport)
  /-- The blinded key has been sent to the peer. -/
  | exponentiated (report : DecryptedReport)
  /-- The key that the peer has blinded has arrived. -/
  | received (report : DecryptedReport) (peerKey : ExponentiatedKey)
  | rekeyed (share : AggregationIdShare)
deriving DecidableEq

namespace JoinState

def name : JoinState → String
  | .decrypted _ => "Decrypted"
  | .exponentiated _ => "Exponentiated"
  | .received _ _ => "ReceivedPeerExponentiated"
  | .rekeyed _ => "Rekeyed"

def id : JoinState → ReportId
  | .decrypted r | .exponentiated r | .received r _ => r.id
  | .rekeyed share => share.id

def unexpected (action : String) (s : JoinState) : Join.Error := .unexpectedState s.id action s.name

/-- Whether the blinded key of the peer is still to come. -/
def awaitsPeer : JoinState → Bool
  | .exponentiated _ => true
  | _ => false

variable (S : Suite)

def exponentiate (own : ElGamal.Secret) (peer : ElGamal.PublicKey S.group) :
    JoinState → TryDraw Join.Error (JoinState × ExponentiatedKey)
  | .decrypted r => do
    let message ← Join.exponentiate S r own peer
    return (.exponentiated r, message)
  | s => throw (s.unexpected "exponentiate")

def receivePeer (peerKey : ExponentiatedKey) : JoinState → Except Join.Error JoinState
  | .exponentiated r =>
    if peerKey.id ≠ r.id then .error (.reportIdMismatch r.id peerKey.id) else .ok (.received r peerKey)
  | s => .error (s.unexpected "receive peer key")

def rekey (key : ElGamal.PrivateKey) (own : ElGamal.Secret) :
    JoinState → Except Join.Error (JoinState × AggregationIdShare × AggregationPayload)
  | .received r peerKey => do
    let (share, payload) ← Join.rekey S peerKey r key own
    return (.rekeyed share, share, payload)
  | s => .error (s.unexpected "rekey")

end JoinState

end PrivateHistogram

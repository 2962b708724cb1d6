import PrivateHistogram.Aggregation.Error
import PrivateHistogram.PeerMessage

/-!
Why a helper refuses to go on, sorted by what has to be looked at.

A failed decryption or group operation is a matter of keys; an identifier outside the domain, or two
bucket keys in one bucket, of the size of the domain; noise parameters that are out of range, of the
privacy configuration; and everything else, of the input.
-/

namespace PrivateHistogram

/-- What is wrong with a report, a message, a parameter or a key. -/
inductive InputFailure
  | duplicateReport (id : ReportId)
  /-- A message is about a report that has not been received. -/
  | unknownReport (id : ReportId)
  /-- A message lacks a report that is waiting for it. -/
  | missingPeerMessage (id : ReportId)
  /-- A key half has been sealed under the identifier of another report. -/
  | keyReportMismatch (expected got : ReportId)
  | report (cause : Report.Error)
  | join (cause : Join.Error)
  | pointFunction (cause : PointFunction.Error)
  | aggregation (cause : Aggregation.Error)
  | peerMessage (cause : PeerMessage.Error)
  | secretShare (cause : SecretSharing.Error)
  /-- Text that is not the JSON that is due. -/
  | encoding
deriving DecidableEq

/-- What is wrong with the size of the domain. -/
inductive DomainFailure
  | outOfRange (id : UInt64) (bits : UInt32)
  | bucketCollision (bucket : UInt64)
deriving DecidableEq, Repr

/-- What is wrong with keys or ciphertexts. -/
inductive CryptoFailure
  | elGamal (cause : ElGamal.Error)
  | transport (cause : Transport.Error)
deriving DecidableEq, Repr

/-- Why a helper refuses to go on. -/
inductive Failure
  | input (cause : InputFailure)
  | crypto (cause : CryptoFailure)
  | domain (cause : DomainFailure)
  | privacyConfig (cause : Privacy.Error)
deriving DecidableEq

def InputFailure.message : InputFailure → String
  | .duplicateReport id => "duplicate report " ++ id.toText
  | .unknownReport id => "unknown report " ++ id.toText
  | .missingPeerMessage id => "no peer message for report " ++ id.toText
  | .keyReportMismatch expected got => s!"DPF key for report {got.toText} delivered as report {expected.toText}"
  | .report cause => cause.message
  | .join cause => cause.message
  | .pointFunction cause => cause.message
  | .aggregation cause => cause.message
  | .peerMessage cause => cause.message
  | .secretShare cause => cause.message
  | .encoding => "malformed JSON"

def DomainFailure.message : DomainFailure → String
  | .outOfRange id bits => s!"aggregation id {id.toNat} exceeds bit length {bits.toNat}"
  | .bucketCollision bucket => s!"distinct bucket keys collide in bucket {bucket.toNat}"

def CryptoFailure.message : CryptoFailure → String
  | .elGamal cause => cause.message
  | .transport cause => cause.message

namespace Failure

def message : Failure → String
  | .input cause => "input error: " ++ cause.message
  | .crypto cause => "crypto error: " ++ cause.message
  | .domain cause => "domain error: " ++ cause.message
  | .privacyConfig cause => "privacy configuration error: " ++ cause.message

instance : ToString Failure := ⟨message⟩

/-! ### Sorting -/

def ofElGamal (e : ElGamal.Error) : Failure := .crypto (.elGamal e)

def ofTransport (e : Transport.Error) : Failure := .crypto (.transport e)

def ofSecretShare (e : SecretSharing.Error) : Failure := .input (.secretShare e)

def ofMessage (e : PeerMessage.Error) : Failure := .input (.peerMessage e)

def ofReport : Report.Error → Failure
  | .transport e => ofTransport e
  | e => .input (.report e)

def ofJoin : Join.Error → Failure
  | .elGamal e => ofElGamal e
  | e => .input (.join e)

def ofPointFunction : PointFunction.Error → Failure
  | .outsideDomain id bits => .domain (.outOfRange id bits)
  | e => .input (.pointFunction e)

def ofAggregation : Aggregation.Error → Failure
  | .pointFunction e => ofPointFunction e
  | .join e => ofJoin e
  | .privacy e => .privacyConfig e
  | .secretShare e => ofSecretShare e
  | .bucketCollision bucket => .domain (.bucketCollision bucket)
  | e => .input (.aggregation e)

end Failure

end PrivateHistogram

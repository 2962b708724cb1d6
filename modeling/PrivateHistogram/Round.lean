import PrivateHistogram.Aggregation
import PrivateHistogram.Failure

/-!
One round of aggregation by a helper, from sealed key halves or from the context that an earlier round has
left behind.
-/

namespace PrivateHistogram

namespace SealedKey

/-- Opens a key half, which has to be for the report that it names. -/
def toRecord (T : Transport) (k : Transport.PrivateKey) (s : SealedKey) : Except Failure KeyRecord := do
  let bytes ← (T.openWith k (info s.reportId) s.ciphertext).mapError Failure.ofTransport
  let some (r : KeyRecord) := Codec.ofBytes? bytes | throw (.input .encoding)
  if r.reportId ≠ s.reportId then throw (.input (.keyReportMismatch s.reportId r.reportId))
  return r

end SealedKey

namespace EvaluationContext

/-- The context of some sealed key halves, in which nothing has been expanded. -/
def ofSealed (T : Transport) (k : Transport.PrivateKey) (keys : List SealedKey) : Except Failure EvaluationContext := do
  return .ofRecords (← keys.mapM (SealedKey.toRecord T k))

end EvaluationContext

/-- What a round is asked to do. -/
structure RoundParams where
  expand : PointFunction.Expansion
  combine : CombineParams
  /-- Whether noise is left out, to check exact results. -/
  ignorePrivacy : Bool

/-- Whether the sums of a round get noise. -/
def RoundParams.isNoised (p : RoundParams) : Bool := p.combine.privacy.isEnabled && !p.ignorePrivacy

namespace Round

variable (S : Suite)

/-- The point functions of a domain. -/
def pointFunction (d : PointFunction.Domain) : PointFunction BucketShare := ⟨d, S.generator⟩

/-- One round over a context: the histogram, and the context afterwards. -/
def aggregate (h : PointFunction.Hierarchy) (p : RoundParams) (context : EvaluationContext) :
    Draw (Except Failure PartialHistogram × EvaluationContext) := do
  match Noise.choose p.combine.privacy p.ignorePrivacy with
  | .error e => return (.error (.privacyConfig e), context)
  | .ok noise =>
    match PointFunction.Domain.ofHierarchy h with
    | .error e => return (.error (.ofPointFunction e), context)
    | .ok d =>
      let (result, context) ← Aggregation.aggregate (pointFunction S d) p.expand p.combine noise context
      return (result.mapError Failure.ofAggregation, context)

inductive Input
  | sealedKeys (keys : List SealedKey)
  | context (context : EvaluationContext)

instance : Codec Input where
  encode
    | .sealedKeys keys => .record [("encrypted_dpf_keys", Codec.encode keys)]
    | .context context => .record [("evaluation_context", Codec.encode context)]
  decode?
    | .object [(name, j)] => do
      match ← Json.Text.decode? name with
      | "encrypted_dpf_keys" => (Codec.decode? j).map .sealedKeys
      | "evaluation_context" => (Codec.decode? j).map .context
      | _ => none
    | _ => none

/-- A round on its own, as the batch entry point runs it. -/
def run (h : PointFunction.Hierarchy) (keys : KeyMaterial) (p : RoundParams) (input : Input) :
    TryDraw Failure (PartialHistogram × EvaluationContext) := do
  let context ← match input with
    | .sealedKeys list => EvaluationContext.ofSealed S.transport keys.transport list
    | .context context => pure context
  let (result, context) ← aggregate S h p context
  return (← result, context)

end Round

end PrivateHistogram

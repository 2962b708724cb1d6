import PrivateHistogram.Round

/-!
A helper: its keys, the public keys of its peer, and all it holds of the reports it has received.

The helpers talk to each other through messages only. Each report goes through the join; when it is done
the helper makes a key for the report, keeps one half sealed to itself and sends the other to its peer.
The halves of both helpers are then expanded round by round. A step that fails keeps what it has done to
the helper by then.
-/

namespace PrivateHistogram

/-- Which of the two helpers this is. The first is the leader, who counts the reports. -/
inductive HelperId
  | one
  | two
deriving DecidableEq, Repr

namespace HelperId

def name : HelperId → String
  | .one => "One"
  | .two => "Two"

def other : HelperId → HelperId
  | .one => .two
  | .two => .one

instance : Codec HelperId where
  encode id := .text id.name
  decode? j := do
    match ← j.toName? with
    | "One" => some .one
    | "Two" => some .two
    | _ => none

end HelperId

/-- How far the join of each report has come. -/
abbrev Joins := Std.ExtTreeMap ReportId JoinState

structure Helper (S : Suite) where
  id : HelperId
  keys : KeyMaterial
  peer : PublicInfo S
  domain : PointFunction.Domain
  joins : Joins
  /-- The key halves it has made or received, sealed to itself. -/
  sealedKeys : List SealedKey
  /-- The context that the rounds so far have left behind. -/
  context : Option EvaluationContext

/-- A step of a helper, which may draw random bytes and may fail. What it has done to the helper by then
stays done. -/
abbrev HelperStep (S : Suite) := ExceptT Failure (StateT (Helper S) Draw)

namespace Helper

variable {S : Suite}

/-- A helper that has received nothing. -/
def fresh (id : HelperId) (keys : KeyMaterial) (peer : PublicInfo S) (h : PointFunction.Hierarchy) :
    Except Failure (Helper S) := do
  let domain ← (PointFunction.Domain.ofHierarchy h).mapError Failure.ofPointFunction
  return { id, keys, peer, domain, joins := ∅, sealedKeys := [], context := none }

def publicInfo (h : Helper S) : PublicInfo S := h.keys.publicInfo S

/-- A computation that draws random bytes as a step that does not change the helper. -/
def drawing {ε α : Type} (sort : ε → Failure) (x : TryDraw ε α) : HelperStep S α := do
  let result : Except ε α ← (x.run : Draw (Except ε α))
  result.mapError sort

/-- Opens the helper's half of a report that has not been received before, and blinds its key for the
peer. -/
def receiveReport (r : PartialReport) : HelperStep S ExponentiatedKey := do
  let h ← get
  if h.joins.contains r.id then throw (.input (.duplicateReport r.id))
  let opened ← (Report.decrypt S r h.keys.transport).mapError Failure.ofReport
  let (state, message) ←
    drawing Failure.ofJoin ((JoinState.decrypted opened).exponentiate S h.keys.secret h.peer.elGamal)
  set { h with joins := h.joins.insert r.id state }
  return message

/-- Takes in reports; the message tells the peer their blinded keys. -/
def receiveReports (reports : List PartialReport) : HelperStep S Bytes := do
  let messages ← reports.mapM receiveReport
  return Codec.toBytes (PeerMessage.exponentiatedKeys messages)

/-- What the keys of a message from the peer amount to: the joins they finish, and the key halves they
give, the helper's own and those for the peer. -/
structure Staged where
  joins : Joins
  own : List SealedKey
  peer : List SealedKey

/-- Finishes the join of one report, and makes the key for it. -/
def stageKey (h : Helper S) (staged : Staged) (peerKey : ExponentiatedKey) : TryDraw Failure Staged := do
  let some state := (staged.joins[peerKey.id]?).or h.joins[peerKey.id]? | throw (.input (.unknownReport peerKey.id))
  let state ← (state.receivePeer peerKey).mapError Failure.ofJoin
  let (state, share, payload) ← (state.rekey S h.keys.elGamal h.keys.secret).mapError Failure.ofJoin
  let (own, peer) ←
    ExceptT.adapt Failure.ofAggregation
      (Aggregation.generateKeys (Round.pointFunction S h.domain) share payload (h.id = .one))
  let own ←
    ExceptT.adapt Failure.ofTransport (SealedKey.ofRecord S.transport own (S.transport.publicKeyOf h.keys.transport))
  let peer ← ExceptT.adapt Failure.ofTransport (SealedKey.ofRecord S.transport peer h.peer.transport)
  return { joins := staged.joins.insert peerKey.id state, own := staged.own ++ [own], peer := staged.peer ++ [peer] }

/-- The first report that waits for its peer although the message has come. -/
def missing? (h : Helper S) (staged : Staged) : Option ReportId :=
  (h.joins.toList.find? fun (id, state) => state.awaitsPeer && !staged.joins.contains id).map Prod.fst

/-- Takes in the keys that the peer has blinded, for all reports that wait for them; the message holds the
peer's halves of the keys. On failure nothing changes, so the message can be sent again. -/
def receiveExponentiatedKeys (message : Bytes) : HelperStep S Bytes := do
  let m ← (PeerMessage.ofBytes message).mapError Failure.ofMessage
  let peerKeys ← m.toExponentiatedKeys.mapError Failure.ofMessage
  let h ← get
  let staged ← drawing (fun e => e) (peerKeys.foldlM (stageKey h) ⟨∅, [], []⟩)
  if let some id := h.missing? staged then throw (.input (.missingPeerMessage id))
  set { h with joins := h.joins.insertMany staged.joins.toList, sealedKeys := h.sealedKeys ++ staged.own }
  return Codec.toBytes (PeerMessage.keyHalves staged.peer)

/-- Takes in the halves of the keys that the peer has made. -/
def receiveKeyHalves (message : Bytes) : HelperStep S Unit := do
  let m ← (PeerMessage.ofBytes message).mapError Failure.ofMessage
  let keys ← m.toKeyHalves.mapError Failure.ofMessage
  modify fun h => { h with sealedKeys := h.sealedKeys ++ keys }

/-- Expands all key halves the helper holds. The first round opens them; later rounds go on from where the
round before stopped. -/
def aggregate (p : RoundParams) : HelperStep S PartialHistogram := do
  let h ← get
  let context ← match h.context with
    | some context => pure context
    | none => EvaluationContext.ofSealed S.transport h.keys.transport h.sealedKeys
  let (result, context) ←
    (Round.aggregate S h.domain.hierarchy p context : Draw (Except Failure PartialHistogram × EvaluationContext))
  set { h with context := some context }
  result

end Helper

end PrivateHistogram

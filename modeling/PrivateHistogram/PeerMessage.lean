import PrivateHistogram.Json.Float
import PrivateHistogram.SealedKey

/-!
The messages that the helpers send each other.

A message is an object with its kind and its content, in either order, or a list of the two, where the kind
has to be a plain text. Content in front of the kind has to be set aside until the kind is known, so all
of it has to be in order, also the fields that are skipped.
-/

namespace PrivateHistogram

inductive PeerMessage
  /-- Blinded bucket keys, for the receiver to finish the join. -/
  | exponentiatedKeys (keys : List ExponentiatedKey)
  /-- Key halves that the sender has made for the receiver. -/
  | keyHalves (keys : List SealedKey)
deriving DecidableEq

namespace PeerMessage

/-- Why a message is refused. -/
inductive Error
  | codec
  /-- A message of another kind is due. -/
  | unexpectedMessage (expected got : String)
deriving DecidableEq, Repr

def Error.message : Error → String
  | .codec => "message codec error"
  | .unexpectedMessage expected got => s!"expected a {expected} message, got {got}"

instance : ToString Error := ⟨Error.message⟩

/-- What a message is called in an error. -/
def kind : PeerMessage → String
  | .exponentiatedKeys _ => "exponentiated keys"
  | .keyHalves _ => "DPF keys"

/-- The message with the given kind and content. -/
def ofBody? (kind : String) (body : Json) : Option PeerMessage :=
  match kind with
  | "exponentiated_keys" => (Codec.decode? body).map exponentiatedKeys
  | "dpf_keys" => (Codec.decode? body).map keyHalves
  | _ => none

/-- How deep content that is set aside may be nested: with the message around it, 127 deep. -/
def maxDepth : Nat := 126

/-- Whether content can be set aside. -/
def isStorable (body : Json) : Bool := body.isPlain (fun n => n.toFloat?.isSome) maxDepth

/-- Whether the kind of a message stands in front of its content. -/
def startsWithKind (members : List (Bytes × Json)) : Bool :=
  let names := members.filterMap fun m => Json.Text.decode? m.1
  names.find? (fun n => n = "type" || n = "body") = some "type"

instance : Codec PeerMessage where
  encode
    | .exponentiatedKeys keys => .record [("type", .text "exponentiated_keys"), ("body", Codec.encode keys)]
    | .keyHalves keys => .record [("type", .text "dpf_keys"), ("body", Codec.encode keys)]
  decode?
    | .array [kind, body] => do ofBody? (← kind.toText?) body
    | .object members => do
      let [kind, body] ← (Json.object members).fields? ["type", "body"] | none
      let body ← body
      if startsWithKind members || isStorable body then ofBody? (← (← kind).toName?) body else none
    | _ => none

/-- The message that bytes stand for. -/
def ofBytes (bytes : Bytes) : Except Error PeerMessage :=
  match Codec.ofBytes? bytes with
  | some m => .ok m
  | none => .error .codec

/-- The blinded keys of a message that is to hold them. -/
def toExponentiatedKeys : PeerMessage → Except Error (List ExponentiatedKey)
  | .exponentiatedKeys keys => .ok keys
  | m => .error (.unexpectedMessage "exponentiated keys" m.kind)

/-- The key halves of a message that is to hold them. -/
def toKeyHalves : PeerMessage → Except Error (List SealedKey)
  | .keyHalves keys => .ok keys
  | m => .error (.unexpectedMessage "DPF keys" m.kind)

end PeerMessage

end PrivateHistogram

import PrivateHistogram.Json.Text
import PrivateHistogram.Json.Parser
import PrivateHistogram.Json.Printer
import PrivateHistogram.Octets.Hex
import Std.Data.ExtTreeMap

/-!
How the values of a type are written as JSON and read back.

A record is an object with its fields in a fixed order. Reading is more lenient than writing: fields
may come in any order, unknown fields are skipped, a field that may be absent may be left out, and a
record may be given as the list of its fields. A field that stands twice is refused.
-/

namespace PrivateHistogram

namespace Json

/-! ### Parts of values -/

def text (s : String) : Json := .string (Text.encode s)

def hex (bytes : Bytes) : Json := text bytes.toHex

def nat (n : Nat) : Json := .number (.ofNat n)

def int (v : Int) : Json := .number (.ofInt v)

def record (fields : List (String × Json)) : Json :=
  .object (fields.map fun (name, value) => (Text.encode name, value))

def toNat? : Json → Option Nat
  | .number n => n.toNat?
  | _ => none

def toInt? : Json → Option Int
  | .number n => n.toInt?
  | _ => none

def toBool? : Json → Option Bool
  | .bool b => some b
  | _ => none

def toText? : Json → Option String
  | .string content => Text.decode? content
  | _ => none

def toList? : Json → Option (List Json)
  | .array items => some items
  | _ => none

/-- The bytes that a string spells in hexadecimal. -/
def toHex? (j : Json) : Option Bytes := j.toText?.bind Bytes.ofHex?

/-- The `n` bytes that a string spells in hexadecimal. -/
def toOctets? (n : Nat) (j : Json) : Option (Octets n) := j.toText?.bind (Octets.ofHex? n)

/-- One of several names, given as a text or as an object from the name to nothing. -/
def toName? : Json → Option String
  | .string content => Text.decode? content
  | .object [(content, .null)] => Text.decode? content
  | _ => none

/-- Takes in one member of an object. A field that is asked for may stand there once, any other any
number of times; every name has to be a text. -/
def fillField (names : List String) (found : List (Option Json)) (member : Bytes × Json) :
    Option (List (Option Json)) := do
  let name ← Text.decode? member.1
  match names.idxOf? name with
  | none => some found
  | some i => if (found.getD i none).isNone then some (found.set i (some member.2)) else none

/-- The values of the named fields of a record, in order. Fields of an object may be missing. -/
def fields? (names : List String) : Json → Option (List (Option Json))
  | .object members => members.foldlM (fillField names) (names.map fun _ => none)
  | .array items => if items.length = names.length then some (items.map some) else none
  | _ => none

/-- As `fields?`, for a record all of whose fields have defaults: a list may end early. -/
def someFields? (names : List String) : Json → Option (List (Option Json))
  | .array items =>
    if items.length ≤ names.length then
      some (items.map some ++ List.replicate (names.length - items.length) none)
    else none
  | j => j.fields? names

/-- Whether arrays and objects are nested at most `limit` deep, every string and name is a text and
every number passes the test. -/
def isPlain (test : Numeral → Bool) : (limit : Nat) → Json → Bool
  | _, .null | _, .bool _ => true
  | _, .number n => test n
  | _, .string content => (Text.decode? content).isSome
  | 0, _ => false
  | limit + 1, .array items => items.all fun j => isPlain test limit j
  | limit + 1, .object members =>
    members.all fun m => (Text.decode? m.1).isSome && isPlain test limit m.2

end Json

/-- A type whose values are stored as JSON. -/
class Codec (α : Type) where
  encode : α → Json
  /-- Says `none` where a value is not of the type. -/
  decode? : Json → Option α

/-- A codec that reads back what it writes. -/
class LawfulCodec (α : Type) [Codec α] : Prop where
  decode_encode : ∀ a : α, Codec.decode? (Codec.encode a) = some a

namespace Codec

variable {α β : Type}

def toBytes [Codec α] (a : α) : Bytes := (encode a).print

def toText [Codec α] (a : α) : String := (encode a).toText

def ofBytes? [Codec α] (bytes : Bytes) : Option α := (Json.parse? bytes).bind decode?

/-- A field that has to be there. -/
def field? [Codec α] (j : Option Json) : Option α := j.bind decode?

/-- A field that may be missing, for which a default then stands in. -/
def fieldD? [Codec α] (default : α) : Option Json → Option α
  | none => some default
  | some j => decode? j

instance : Codec UInt64 where
  encode n := Json.nat n.toNat
  decode? j := do
    let n ← j.toNat?
    if n < UInt64.size then some (UInt64.ofNat n) else none

instance : Codec UInt32 where
  encode n := Json.nat n.toNat
  decode? j := do
    let n ← j.toNat?
    if n < UInt32.size then some (UInt32.ofNat n) else none

instance : Codec UInt16 where
  encode n := Json.nat n.toNat
  decode? j := do
    let n ← j.toNat?
    if n < UInt16.size then some (UInt16.ofNat n) else none

instance : Codec Bool := ⟨Json.bool, Json.toBool?⟩

instance {n : Nat} : Codec (Octets n) := ⟨fun o => Json.hex o.toBytes, Json.toOctets? n⟩

instance [Codec α] : Codec (List α) where
  encode list := .array (list.map encode)
  decode? j := do
    let items ← j.toList?
    items.mapM decode?

instance [Codec α] : Codec (Array α) where
  encode array := .array (array.toList.map encode)
  decode? j := do
    let items ← j.toList?
    let list ← items.mapM decode?
    some list.toArray

/-- Nothing is `null`. -/
instance [Codec α] : Codec (Option α) where
  encode
    | none => .null
    | some a => encode a
  decode?
    | .null => some none
    | j => (decode? j).map some

/-- A number as the name of a member: its digits, without a zero in front of them. -/
def decodeKey? (bound : Nat) (content : Bytes) : Option Nat :=
  match Json.Parser.whole? content with
  | some (n, []) => if n < bound then some n else none
  | _ => none

/-- Of several members of one name the last counts. -/
instance [Codec β] : Codec (Std.ExtTreeMap UInt64 β) where
  encode map := .object (map.toList.map fun (k, v) => (Numeral.digits k.toNat, encode v))
  decode?
    | .object members => do
      let entries ← members.mapM fun (name, j) => do
        let k ← decodeKey? UInt64.size name
        let v ← decode? j
        some (UInt64.ofNat k, v)
      some (Std.ExtTreeMap.ofList entries)
    | _ => none

/-- Of several members of one name the last counts. -/
instance [Codec β] : Codec (Std.ExtTreeMap UInt32 β) where
  encode map := .object (map.toList.map fun (k, v) => (Numeral.digits k.toNat, encode v))
  decode?
    | .object members => do
      let entries ← members.mapM fun (name, j) => do
        let k ← decodeKey? UInt32.size name
        let v ← decode? j
        some (UInt32.ofNat k, v)
      some (Std.ExtTreeMap.ofList entries)
    | _ => none

end Codec

end PrivateHistogram

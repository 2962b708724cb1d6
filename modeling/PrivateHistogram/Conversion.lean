import PrivateHistogram.Json.Codec
import PrivateHistogram.Text.Blank
import PrivateHistogram.Text.Number
import PrivateHistogram.Text.Quoted

/-!
Conversions: what a client reports before any cryptography is applied.

A conversion is written as a line `key,value`. The key may hold commas, the value may not; blanks
around the line and around the value do not count.
-/

namespace PrivateHistogram

/-- A value attributed to a bucket key. -/
structure Conversion where
  bucketKey : Bytes
  value : UInt16
deriving DecidableEq

namespace Conversion

inductive ParseError
  | missingComma (line : String)
  | badValue (line : String) (cause : Text.NumberError)
deriving DecidableEq, Repr

/-- The wording of an error. It shows the line as it was given. -/
def ParseError.message : ParseError → String
  | .missingComma line => "missing comma in " ++ Text.quoted line
  | .badValue line cause => "bad value in " ++ Text.quoted line ++ ": " ++ cause.message

/-- What stands in front of the last comma and behind it. -/
def splitAtLastComma? : List Char → Option (List Char × List Char)
  | [] => none
  | c :: rest =>
    match splitAtLastComma? rest with
    | some (key, value) => some (c :: key, value)
    | none => if c = ',' then some ([], rest) else none

/-- The conversion that a line describes. -/
def parse (line : String) : Except ParseError Conversion :=
  match splitAtLastComma? (Text.trim line.toList) with
  | none => .error (.missingComma line)
  | some (key, value) =>
    match Text.readNat UInt16.size (Text.trim value) with
    | .error cause => .error (.badValue line cause)
    | .ok n => .ok { bucketKey := Bytes.ofText (String.ofList key), value := UInt16.ofNat n }

instance : Codec Conversion where
  encode c := .record [("bucket_key", .hex c.bucketKey), ("value", Codec.encode c.value)]
  decode? j := do
    let [key, value] ← j.fields? ["bucket_key", "value"] | none
    some { bucketKey := ← key.bind Json.toHex?, value := ← Codec.field? value }

end Conversion

end PrivateHistogram

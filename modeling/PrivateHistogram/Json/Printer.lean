import PrivateHistogram.Json

/-!
The compact form in which JSON values are written: no blanks, and integers in decimal.
-/

namespace PrivateHistogram

namespace Numeral

/-- The decimal digits of a number, the most significant first. -/
def digits (n : Nat) : Bytes := (Nat.toDigits 10 n).map fun c => UInt8.ofNat c.toNat

/-- A number as it is written. A positive exponent has a sign too. -/
def print (n : Numeral) : Bytes :=
  let sign : Bytes := if n.negative then [0x2d] else []
  let fraction : Bytes := if n.fraction = [] then [] else 0x2e :: n.fraction.map fun d => UInt8.ofNat (d + 0x30)
  let exponent : Bytes := match n.exponent with
    | none => []
    | some e => 0x65 :: (if e < 0 then 0x2d else 0x2b) :: digits e.natAbs
  sign ++ (digits n.whole ++ (fraction ++ exponent))

end Numeral

namespace Json

def quote (content : Bytes) : Bytes := 0x22 :: (content ++ [0x22])

mutual

def print : Json → Bytes
  | .null => [0x6e, 0x75, 0x6c, 0x6c]
  | .bool true => [0x74, 0x72, 0x75, 0x65]
  | .bool false => [0x66, 0x61, 0x6c, 0x73, 0x65]
  | .number n => n.print
  | .string content => quote content
  | .array items => 0x5b :: (printItems items ++ [0x5d])
  | .object members => 0x7b :: (printMembers members ++ [0x7d])
termination_by structural j => j

/-- The items of an array with commas between them. -/
def printItems : List Json → Bytes
  | [] => []
  | [j] => print j
  | j :: rest => print j ++ 0x2c :: printItems rest
termination_by structural items => items

/-- The members of an object with commas between them. -/
def printMembers : List (Bytes × Json) → Bytes
  | [] => []
  | [m] => printMember m
  | m :: rest => printMember m ++ 0x2c :: printMembers rest
termination_by structural members => members

def printMember : Bytes × Json → Bytes
  | (name, j) => quote name ++ 0x3a :: print j
termination_by structural member => member

end

/-- The text of a value; strings whose bytes are not UTF-8 have none. -/
def toText (j : Json) : String := j.print.toText?.getD ""

end Json

end PrivateHistogram

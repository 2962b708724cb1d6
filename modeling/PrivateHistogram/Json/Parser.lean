import PrivateHistogram.Json.Text

/-!
Reading JSON.

The reader works on bytes and accepts one value with blanks around it and nothing after it. Every
function gives what it read together with the bytes that are left, and none if there is no such thing at
the front.
-/

namespace PrivateHistogram.Json

namespace Parser

/-- The bytes after the blanks at the front. -/
def skipBlank : Bytes → Bytes
  | [] => []
  | b :: rest => if b = 0x20 ∨ b = 0x0a ∨ b = 0x09 ∨ b = 0x0d then skipBlank rest else b :: rest

/-- The bytes after the given ones. -/
def expect? : (wanted : Bytes) → Bytes → Option Bytes
  | [], s => some s
  | _ :: _, [] => none
  | w :: wanted, b :: rest => if w = b then expect? wanted rest else none

def isDigit (b : UInt8) : Bool := 0x30 ≤ b ∧ b ≤ 0x39

def digits : Bytes → List Nat × Bytes
  | [] => ([], [])
  | b :: rest =>
    if isDigit b then
      let (ds, rest) := digits rest
      ((b.toNat - 0x30) :: ds, rest)
    else ([], b :: rest)

def ofDigits (ds : List Nat) : Nat := ds.foldl (fun n d => 10 * n + d) 0

/-- The integer part of a number: no zero stands in front of another digit. -/
def whole? (s : Bytes) : Option (Nat × Bytes) :=
  match digits s with
  | ([], _) => none
  | (0 :: _ :: _, _) => none
  | (ds, rest) => some (ofDigits ds, rest)

/-- A point with at least one digit behind it, or nothing. -/
def fraction? : Bytes → Option (List Nat × Bytes)
  | 0x2e :: rest =>
    match digits rest with
    | ([], _) => none
    | (ds, rest) => some (ds, rest)
  | s => some ([], s)

/-- An exponent with at least one digit, or nothing. -/
def exponent? : Bytes → Option (Option Int × Bytes)
  | b :: rest =>
    if b = 0x65 ∨ b = 0x45 then
      let (negative, rest) := match rest with
        | 0x2d :: rest => (true, rest)
        | 0x2b :: rest => (false, rest)
        | rest => (false, rest)
      match digits rest with
      | ([], _) => none
      | (ds, rest) => some (some (if negative then -(ofDigits ds : Int) else ofDigits ds), rest)
    else some (none, b :: rest)
  | [] => some (none, [])

def number? (s : Bytes) : Option (Numeral × Bytes) := do
  let (negative, s) := match s with
    | 0x2d :: rest => (true, rest)
    | s => (false, s)
  let (whole, s) ← whole? s
  let (fraction, s) ← fraction? s
  let (exponent, s) ← exponent? s
  some (⟨negative, whole, fraction, exponent⟩, s)

/-- The bytes of a string up to its closing quote, after those in `read`, which are in reverse. A
control character does not stand in a string, and a backslash only in front of one of the escapes. -/
def string? (read : Bytes) : Bytes → Option (Bytes × Bytes)
  | [] => none
  | b :: rest =>
    if b = 0x22 then some (read.reverse, rest)
    else if b = 0x5c then
      match rest with
      | [] => none
      | e :: rest =>
        if e = 0x75 then
          match rest with
          | p :: q :: r :: s :: rest =>
            if (Text.codeUnit? p q r s).isSome then string? (s :: r :: q :: p :: e :: b :: read) rest else none
          | _ => none
        else if (Text.escaped? e).isSome then string? (e :: b :: read) rest
        else none
    else if b < 0x20 then none
    else string? (b :: read) rest

mutual

/-- A value without blanks in front of it. -/
def value? : (fuel : Nat) → Bytes → Option (Json × Bytes)
  | 0, _ => none
  | _ + 1, [] => none
  | fuel + 1, b :: rest =>
    if b = 0x22 then (string? [] rest).map fun (s, rest) => (.string s, rest)
    else if b = 0x5b then
      match skipBlank rest with
      | 0x5d :: rest => some (.array [], rest)
      | rest => items? fuel [] rest
    else if b = 0x7b then
      match skipBlank rest with
      | 0x7d :: rest => some (.object [], rest)
      | rest => members? fuel [] rest
    else if b = 0x6e then (expect? [0x75, 0x6c, 0x6c] rest).map fun rest => (.null, rest)
    else if b = 0x74 then (expect? [0x72, 0x75, 0x65] rest).map fun rest => (.bool true, rest)
    else if b = 0x66 then (expect? [0x61, 0x6c, 0x73, 0x65] rest).map fun rest => (.bool false, rest)
    else (number? (b :: rest)).map fun (n, rest) => (.number n, rest)

/-- The items of an array from the next one to the closing bracket, after those already read. -/
def items? : (fuel : Nat) → (read : List Json) → Bytes → Option (Json × Bytes)
  | 0, _, _ => none
  | fuel + 1, read, s =>
    match value? fuel s with
    | none => none
    | some (j, rest) =>
      match skipBlank rest with
      | 0x2c :: rest => items? fuel (j :: read) (skipBlank rest)
      | 0x5d :: rest => some (.array (j :: read).reverse, rest)
      | _ => none

/-- The members of an object from the next one to the closing brace, after those already read. -/
def members? : (fuel : Nat) → (read : List (Bytes × Json)) → Bytes → Option (Json × Bytes)
  | 0, _, _ => none
  | fuel + 1, read, 0x22 :: s =>
    match string? [] s with
    | none => none
    | some (name, rest) =>
      match skipBlank rest with
      | 0x3a :: rest =>
        match value? fuel (skipBlank rest) with
        | none => none
        | some (j, rest) =>
          match skipBlank rest with
          | 0x2c :: rest => members? fuel ((name, j) :: read) (skipBlank rest)
          | 0x7d :: rest => some (.object ((name, j) :: read).reverse, rest)
          | _ => none
      | _ => none
  | _ + 1, _, _ => none

end

end Parser

/-- The value that bytes spell: one value, with blanks around it. -/
def parse? (s : Bytes) : Option Json :=
  match Parser.value? (2 * s.length + 1) (Parser.skipBlank s) with
  | some (j, rest) => if Parser.skipBlank rest = [] then some j else none
  | none => none

end PrivateHistogram.Json

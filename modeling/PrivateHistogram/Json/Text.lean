import PrivateHistogram.Json

/-!
What stands between the quotes of a string: a text in UTF-8, in which quotes, backslashes and control
characters are escaped. Any character may be escaped; a code point outside the first plane is then
written as a surrogate pair.
-/

namespace PrivateHistogram.Json.Text

/-- A byte of a text as it stands between quotes. -/
def escape (b : UInt8) : Bytes :=
  match b.toNat with
  | 0x22 => [0x5c, 0x22]
  | 0x5c => [0x5c, 0x5c]
  | 0x08 => [0x5c, 0x62]
  | 0x0c => [0x5c, 0x66]
  | 0x0a => [0x5c, 0x6e]
  | 0x0d => [0x5c, 0x72]
  | 0x09 => [0x5c, 0x74]
  | n =>
    if n < 0x20 then
      [0x5c, 0x75, 0x30, 0x30, UInt8.ofNat (0x30 + n / 16),
        UInt8.ofNat (if n % 16 < 10 then 0x30 + n % 16 else 0x57 + n % 16)]
    else [b]

/-- A text as it stands between quotes. -/
def encode (text : String) : Bytes := (Bytes.ofText text).flatMap escape

def hexDigit? (b : UInt8) : Option Nat :=
  if 0x30 ≤ b ∧ b ≤ 0x39 then some (b.toNat - 0x30)
  else if 0x61 ≤ b ∧ b ≤ 0x66 then some (b.toNat - 0x57)
  else if 0x41 ≤ b ∧ b ≤ 0x46 then some (b.toNat - 0x37)
  else none

/-- The number that four hexadecimal digits stand for. -/
def codeUnit? (a b c d : UInt8) : Option Nat := do
  let a ← hexDigit? a
  let b ← hexDigit? b
  let c ← hexDigit? c
  let d ← hexDigit? d
  some (4096 * a + 256 * b + 16 * c + d)

/-- The byte that a character after a backslash stands for, `u` apart. -/
def escaped? (b : UInt8) : Option UInt8 :=
  match b.toNat with
  | 0x22 => some 0x22
  | 0x5c => some 0x5c
  | 0x2f => some 0x2f
  | 0x62 => some 0x08
  | 0x66 => some 0x0c
  | 0x6e => some 0x0a
  | 0x72 => some 0x0d
  | 0x74 => some 0x09
  | _ => none

/-- The bytes of a code point in UTF-8. -/
def codePoint (n : Nat) : Bytes := Bytes.ofText (String.singleton (Char.ofNat n))

/-- The bytes without their escapes, after those in `done`, which are in reverse; `high` is a high
surrogate that still lacks its other half. -/
def unescape? (done : Bytes) (high : Option Nat) : Bytes → Option Bytes
  | [] => if high.isNone then some done.reverse else none
  | b :: rest =>
    if b = 0x5c then
      match rest with
      | [] => none
      | e :: rest =>
        if e = 0x75 then
          match rest with
          | p :: q :: r :: s :: rest =>
            match codeUnit? p q r s, high with
            | none, _ => none
            | some n, none =>
              if 0xd800 ≤ n ∧ n < 0xdc00 then unescape? done (some n) rest
              else if 0xdc00 ≤ n ∧ n < 0xe000 then none
              else unescape? ((codePoint n).reverse ++ done) none rest
            | some n, some h =>
              if 0xdc00 ≤ n ∧ n < 0xe000 then
                unescape? ((codePoint (0x10000 + (h - 0xd800) * 0x400 + (n - 0xdc00))).reverse ++ done) none rest
              else none
          | _ => none
        else
          match escaped? e, high with
          | some c, none => unescape? (c :: done) none rest
          | _, _ => none
    else if high.isNone then unescape? (b :: done) none rest
    else none

/-- The text that stands between quotes, if it is one. -/
def decode? (content : Bytes) : Option String := (unescape? [] none content).bind Bytes.toText?

end PrivateHistogram.Json.Text

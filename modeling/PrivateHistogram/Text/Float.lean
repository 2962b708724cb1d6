import PrivateHistogram.Decimal

/-!
Floating-point numbers in plain text: an optional sign, digits with an optional point among them, and an
optional exponent; or infinity or NaN, in any case. The nearest float is taken.
-/

namespace PrivateHistogram.Text

/-- The digits at the front as one number after `n`, how many they are, and what follows. -/
def takeDigits (n count : Nat) : List Char → Nat × Nat × List Char
  | [] => (n, count, [])
  | c :: rest => if c.isDigit then takeDigits (10 * n + (c.toNat - 0x30)) (count + 1) rest else (n, count, c :: rest)

/-- A sign at the front, if there is one, and what follows. -/
def takeSign : List Char → Bool × List Char
  | '-' :: rest => (true, rest)
  | '+' :: rest => (false, rest)
  | s => (false, s)

/-- The exponent that is all of the text, or zero for none. -/
def readExponent? : List Char → Option Int
  | [] => some 0
  | c :: rest =>
    if c = 'e' ∨ c = 'E' then
      match takeSign rest with
      | (negative, digits) =>
        match takeDigits 0 0 digits with
        | (_, 0, _) => none
        | (n, _, []) => some (if negative then -(n : Int) else n)
        | _ => none
    else none

/-- The decimal number that is all of the text, without a sign. -/
def readDecimal? (s : List Char) : Option Decimal :=
  let (significand, whole, rest) := takeDigits 0 0 s
  let (significand, behind, rest) := match rest with
    | '.' :: rest => takeDigits significand 0 rest
    | rest => (significand, 0, rest)
  if whole + behind = 0 then none
  else (readExponent? rest).map fun exponent => ⟨significand, exponent - behind⟩

/-- The float that is all of the text. -/
def readFloat? (s : List Char) : Option Float :=
  let (negative, s) := takeSign s
  let name := s.map Char.toLower
  let magnitude : Option Float :=
    if name = "inf".toList ∨ name = "infinity".toList then some (Float.ofBits 0x7ff0000000000000)
    else if name = "nan".toList then some (Float.ofBits 0x7ff8000000000000)
    else (readDecimal? s).map Decimal.toFloat
  magnitude.map fun x => if negative then -x else x

end PrivateHistogram.Text

import PrivateHistogram.Text.Printable

/-!
A text in double quotes, as it is shown in a message: quotes, backslashes and characters that cannot be
seen are escaped.
-/

namespace PrivateHistogram.Text

/-- A number in hexadecimal, without leading zeros. -/
def hexNumber (n : Nat) : String := String.ofList (Nat.toDigits 16 n)

/-- A character as it stands between quotes. -/
def showChar (c : Char) : String :=
  match c with
  | '\x00' => "\\0"
  | '\t' => "\\t"
  | '\r' => "\\r"
  | '\n' => "\\n"
  | '\\' => "\\\\"
  | '\"' => "\\\""
  | c => if isPrintable c then String.singleton c else "\\u\x7b" ++ hexNumber c.toNat ++ "\x7d"

def quoted (s : String) : String := "\"" ++ String.join (s.toList.map showChar) ++ "\""

end PrivateHistogram.Text

/-!
Natural numbers written in decimal, as a person types them: a plus sign may stand in front, and leading
zeros do not matter.
-/

namespace PrivateHistogram.Text

/-- Why a text is no number below a bound. -/
inductive NumberError
  | empty
  | invalidDigit
  | tooLarge
deriving DecidableEq, Repr

def NumberError.message : NumberError → String
  | .empty => "cannot parse integer from empty string"
  | .invalidDigit => "invalid digit found in string"
  | .tooLarge => "number too large to fit in target type"

def digit? (c : Char) : Option Nat := if '0' ≤ c ∧ c ≤ '9' then some (c.toNat - '0'.toNat) else none

/-- The number that digits spell after those that spell `n`. Whatever is found first decides: a
character that is no digit, or a digit that takes the number to the bound. -/
def readDigits (bound n : Nat) : List Char → Except NumberError Nat
  | [] => .ok n
  | c :: rest =>
    match digit? c with
    | none => .error .invalidDigit
    | some d => if 10 * n + d < bound then readDigits bound (10 * n + d) rest else .error .tooLarge

/-- The number below `bound` that a text spells. -/
def readNat (bound : Nat) : List Char → Except NumberError Nat
  | [] => .error .empty
  | ['+'] => .error .invalidDigit
  | '+' :: rest => readDigits bound 0 rest
  | s => readDigits bound 0 s

end PrivateHistogram.Text

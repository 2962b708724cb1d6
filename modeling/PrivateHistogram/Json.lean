import PrivateHistogram.Octets

/-!
JSON values, the form in which everything is stored and sent.

A value keeps what was written: the parts of a number, and the bytes between the quotes of a string,
escapes included. Whether those bytes are a text is asked only where a text is read; bytes that are not
UTF-8, or half of a surrogate pair, may stand where nothing reads them.
-/

namespace PrivateHistogram

/-- A number as written: `whole`, the digits behind the point, and the exponent. -/
structure Numeral where
  negative : Bool
  whole : Nat
  fraction : List Nat
  exponent : Option Int
deriving DecidableEq, Repr

/-- A JSON value. Strings and names are the bytes between their quotes. -/
inductive Json
  | null
  | bool (b : Bool)
  | number (n : Numeral)
  | string (content : Bytes)
  | array (items : List Json)
  | object (members : List (Bytes × Json))
deriving Repr, Inhabited

namespace Numeral

def ofNat (n : Nat) : Numeral := ⟨false, n, [], none⟩

def ofInt (v : Int) : Numeral := ⟨v < 0, v.natAbs, [], none⟩

/-- The natural number that is written without sign, point and exponent. -/
def toNat? (n : Numeral) : Option Nat :=
  if !n.negative ∧ n.fraction = [] ∧ n.exponent = none then some n.whole else none

/-- The integer that is written without point and exponent. Zero has no sign. -/
def toInt? (n : Numeral) : Option Int :=
  if n.fraction = [] ∧ n.exponent = none then
    if !n.negative then some n.whole else if n.whole = 0 then none else some (-n.whole)
  else none

@[simp] theorem toNat?_ofNat (n : Nat) : (ofNat n).toNat? = some n := rfl

@[simp] theorem toInt?_ofInt (v : Int) : (ofInt v).toInt? = some v := by
  unfold ofInt toInt?
  by_cases h : v < 0
  · have : v.natAbs ≠ 0 := by omega
    simp only [and_self, ↓reduceIte, h, decide_true, Bool.not_true, Bool.false_eq_true, this, Option.some.injEq]
    omega
  · simp only [and_self, ↓reduceIte, h, decide_false, Bool.not_false, Option.some.injEq]
    omega

end Numeral

end PrivateHistogram

import PrivateHistogram.Octets

/-!
Hexadecimal text: two digits a byte, written in lower case and read in either case. Reading takes
back what writing produced.
-/

namespace PrivateHistogram

namespace Hex

def digit (n : Nat) : Char := "0123456789abcdef".toList.getD n '0'

/-- The number a digit stands for. -/
def value? (c : Char) : Option Nat :=
  if '0' ≤ c ∧ c ≤ '9' then some (c.toNat - '0'.toNat)
  else if 'a' ≤ c ∧ c ≤ 'f' then some (c.toNat - 'a'.toNat + 10)
  else if 'A' ≤ c ∧ c ≤ 'F' then some (c.toNat - 'A'.toNat + 10)
  else none

/-- Two digits for each byte. -/
def digits : Bytes → List Char
  | [] => []
  | b :: rest => digit (b.toNat / 16) :: digit (b.toNat % 16) :: digits rest

/-- Refuses an odd number of digits and any character that is no digit. -/
def undigits? : List Char → Option Bytes
  | [] => some []
  | [_] => none
  | high :: low :: rest => do
    let h ← value? high
    let l ← value? low
    let bytes ← undigits? rest
    some (UInt8.ofNat (16 * h + l) :: bytes)

theorem value?_digit : ∀ n < 16, value? (digit n) = some n := by decide

theorem undigits?_digits (bytes : Bytes) : undigits? (digits bytes) = some bytes := by
  induction bytes with
  | nil => rfl
  | cons b rest ih =>
    have hb : b.toNat < 256 := b.toNat_lt
    have hd : 16 * (b.toNat / 16) + b.toNat % 16 = b.toNat := by omega
    rw [digits, undigits?, value?_digit _ (by omega : b.toNat / 16 < 16),
      value?_digit _ (by omega : b.toNat % 16 < 16), ih]
    simp only [Option.bind_eq_bind, Option.bind_some, hd, UInt8.ofNat_toNat]

end Hex

/-- The bytes in hexadecimal. -/
def Bytes.toHex (bytes : Bytes) : String := String.ofList (Hex.digits bytes)

/-- The bytes that a hexadecimal text spells. -/
def Bytes.ofHex? (text : String) : Option Bytes := Hex.undigits? text.toList

def Octets.toHex {n : Nat} (o : Octets n) : String := o.toBytes.toHex

def Octets.ofHex? (n : Nat) (text : String) : Option (Octets n) :=
  (Bytes.ofHex? text).bind (Bytes.toOctets? n)

@[simp] theorem Bytes.ofHex?_toHex (bytes : Bytes) : Bytes.ofHex? bytes.toHex = some bytes := by
  simp [Bytes.ofHex?, Bytes.toHex, Hex.undigits?_digits]

@[simp] theorem Octets.ofHex?_toHex {n : Nat} (o : Octets n) : Octets.ofHex? n o.toHex = some o := by
  simp [Octets.ofHex?, Octets.toHex]

end PrivateHistogram

import PrivateHistogram.RandomTape

/-!
The field of integers modulo `2^64 - 2^32 + 1`, a prime.

Value shares and bucket counts are added up here: sums of many 16-bit contributions stay far below the
modulus, so a total that has been put together again never wraps. An element is held as the integer
below the modulus that stands for it. Read as a signed number, the upper half of the field is negative.
-/

namespace PrivateHistogram

/-- An integer modulo the prime `2^64 - 2^32 + 1`. -/
structure Goldilocks where
  /-- The integer below the modulus that stands for the element. -/
  val : Nat
  isLt : val < 0xffffffff00000001
deriving DecidableEq

namespace Goldilocks

def modulus : Nat := 0xffffffff00000001

def encodedSize : Nat := 8

theorem modulus_pos : 0 < modulus := by decide

def ofNat (n : Nat) : Goldilocks := ⟨n % modulus, Nat.mod_lt _ modulus_pos⟩

/-- The element that an integer already below the modulus stands for. -/
def ofNat? (n : Nat) : Option Goldilocks := if h : n < modulus then some ⟨n, h⟩ else none

/-- The element that a signed integer stands for. -/
def ofInt (v : Int) : Goldilocks := ofNat (v % modulus).toNat

/-- The signed integer nearest to zero that stands for the element. -/
def toInt (a : Goldilocks) : Int :=
  if a.val > modulus / 2 then (a.val : Int) - modulus else a.val

instance : Zero Goldilocks := ⟨⟨0, by decide⟩⟩
instance : One Goldilocks := ⟨⟨1, by decide⟩⟩
instance : Inhabited Goldilocks := ⟨0⟩
instance : Add Goldilocks := ⟨fun a b => ofNat (a.val + b.val)⟩
instance : Neg Goldilocks := ⟨fun a => ofNat (modulus - a.val)⟩
instance : Sub Goldilocks := ⟨fun a b => a + -b⟩
instance : Ord Goldilocks := ⟨fun a b => compare a.val b.val⟩

def sum (list : List Goldilocks) : Goldilocks := list.foldl (· + ·) 0

/-- The element or, if asked, its negation. -/
def negateIf (choice : Bool) (a : Goldilocks) : Goldilocks := if choice then -a else a

/-- The eight bytes of the integer that stands for the element, least significant first. -/
def toBytes (a : Goldilocks) : Bytes := Bytes.ofNatLittle encodedSize a.val

inductive DecodeError
  /-- The integer is not below the modulus. -/
  | modulusOverflow
  /-- Fewer than eight bytes. -/
  | shortRead
deriving DecidableEq, Repr

def DecodeError.message : DecodeError → String
  | .modulusOverflow => "integer exceeds modulus"
  | .shortRead => "short read from bytes"

instance : ToString DecodeError := ⟨DecodeError.message⟩

/-- Reads an element from the first eight bytes. -/
def ofBytes (bytes : Bytes) : Except DecodeError Goldilocks :=
  if bytes.length < encodedSize then .error .shortRead
  else match ofNat? (Bytes.toNatLittle (bytes.take encodedSize)) with
    | some a => .ok a
    | none => .error .modulusOverflow

/-- A uniformly random element: eight bytes at a time, until they spell an integer below the
modulus. -/
def draw {σ : Type} [ByteSource σ] (s : σ) : Goldilocks × σ :=
  ByteSource.untilSome (fun s =>
    let (word, rest) := ByteSource.word64 s
    (ofNat? word.toNat, rest)) 0 ByteSource.retries s

/-! ### Laws -/

theorem ext {a b : Goldilocks} (h : a.val = b.val) : a = b := by
  cases a
  cases b
  cases h
  rfl

theorem val_lt (a : Goldilocks) : a.val < modulus := a.isLt

@[simp] theorem val_zero : (0 : Goldilocks).val = 0 := rfl

@[simp] theorem val_ofNat (n : Nat) : (ofNat n).val = n % modulus := rfl

theorem val_add (a b : Goldilocks) : (a + b).val = (a.val + b.val) % modulus := rfl

theorem val_neg (a : Goldilocks) : (-a).val = (modulus - a.val) % modulus := rfl

theorem sub_eq_add_neg (a b : Goldilocks) : a - b = a + -b := rfl

theorem add_comm (a b : Goldilocks) : a + b = b + a :=
  ext (by rw [val_add, val_add, Nat.add_comm])

theorem add_assoc (a b c : Goldilocks) : a + b + c = a + (b + c) :=
  ext (by simp only [val_add, Nat.mod_add_mod, Nat.add_mod_mod, Nat.add_assoc])

@[simp] theorem zero_add (a : Goldilocks) : 0 + a = a :=
  ext (by rw [val_add, val_zero, Nat.zero_add, Nat.mod_eq_of_lt a.val_lt])

@[simp] theorem add_zero (a : Goldilocks) : a + 0 = a := by rw [add_comm, zero_add]

@[simp] theorem neg_add_cancel (a : Goldilocks) : -a + a = 0 := by
  have := a.val_lt
  exact ext (by rw [val_add, val_neg, Nat.mod_add_mod, Nat.sub_add_cancel (by omega), Nat.mod_self, val_zero])

end Goldilocks

end PrivateHistogram

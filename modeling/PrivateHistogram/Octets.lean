/-!
Bytes and the numbers they spell.

A byte string of any length is a list; one of a length fixed by its meaning is a vector, so its
length needs no check after it has been read. Numbers are spelled in either byte order.
-/

namespace PrivateHistogram

abbrev Bytes := List UInt8

/-- A byte string of exactly `n` bytes. -/
abbrev Octets (n : Nat) := Vector UInt8 n

namespace Bytes

def ofText (text : String) : Bytes := text.toUTF8.data.toList

/-- The text that the bytes spell in UTF-8, if they spell one. -/
def toText? (bytes : Bytes) : Option String := String.fromUTF8? ⟨bytes.toArray⟩

/-- Byte by byte exclusive or, as long as the shorter string. -/
def xor (a b : Bytes) : Bytes := List.zipWith (· ^^^ ·) a b

/-- The number spelled with its least significant byte first. -/
def toNatLittle : Bytes → Nat
  | [] => 0
  | b :: rest => b.toNat + 256 * toNatLittle rest

/-- The number spelled with its most significant byte first. -/
def toNatBig (bytes : Bytes) : Nat := bytes.foldl (fun n b => 256 * n + b.toNat) 0

/-- The low `count` bytes of a number, least significant first. -/
def ofNatLittle : (count : Nat) → Nat → Bytes
  | 0, _ => []
  | count + 1, n => UInt8.ofNat n :: ofNatLittle count (n / 256)

/-- The low `count` bytes of a number, most significant first. -/
def ofNatBig (count n : Nat) : Bytes := (ofNatLittle count n).reverse

/-- The same bytes as a string of known length, if they have that length. -/
def toOctets? (n : Nat) (bytes : Bytes) : Option (Octets n) :=
  if h : bytes.length = n then some ⟨bytes.toArray, by simpa using h⟩ else none

/-- The first `n` bytes, with zeros where there are fewer. -/
def fit (n : Nat) (bytes : Bytes) : Octets n :=
  let array := bytes.toArray
  Vector.ofFn fun i => array.getD i 0

/-- The string cut into pieces of `size` bytes (of one byte if `size` is zero); the last piece may
be shorter. -/
def chunks (size : Nat) : Bytes → List Bytes
  | [] => []
  | b :: rest => (b :: rest.take (size - 1)) :: chunks size (rest.drop (size - 1))
termination_by bytes => bytes.length
decreasing_by
  simp only [List.length_drop, List.length_cons]
  omega

theorem toList_fit {n : Nat} {bytes : Bytes} (h : bytes.length = n) : (fit n bytes).toList = bytes := by
  subst h
  apply List.ext_getElem
  · simp
  · intro i h1 h2
    simp [fit]

theorem length_xor (a b : Bytes) : (xor a b).length = min a.length b.length := by
  simp [xor]

theorem length_ofNatLittle (count n : Nat) : (ofNatLittle count n).length = count := by
  induction count generalizing n with
  | zero => rfl
  | succ count ih => simp [ofNatLittle, ih]

/-- Spelling a number keeps its low bytes. -/
theorem toNatLittle_ofNatLittle (count n : Nat) :
    toNatLittle (ofNatLittle count n) = n % Nat.pow 256 count := by
  induction count generalizing n with
  | zero => exact (Nat.mod_one n).symm
  | succ count ih =>
    have low : (UInt8.ofNat n).toNat = n % 256 := rfl
    change (UInt8.ofNat n).toNat + 256 * toNatLittle (ofNatLittle count (n / 256)) = n % (Nat.pow 256 count * 256)
    rw [ih, low, Nat.mul_comm (Nat.pow 256 count), Nat.mod_mul]

theorem toNatLittle_lt (bytes : Bytes) : toNatLittle bytes < Nat.pow 256 bytes.length := by
  induction bytes with
  | nil => exact Nat.one_pos
  | cons b rest ih =>
    have hb := b.toNat_lt
    change b.toNat + 256 * toNatLittle rest < Nat.pow 256 rest.length * 256
    omega

/-- Spelling the number that a string spells gives the string. -/
theorem ofNatLittle_toNatLittle (bytes : Bytes) : ofNatLittle bytes.length (toNatLittle bytes) = bytes := by
  induction bytes with
  | nil => rfl
  | cons b rest ih =>
    have hb := b.toNat_lt
    have low : UInt8.ofNat (b.toNat + 256 * toNatLittle rest) = b :=
      UInt8.toNat_inj.mp (by rw [UInt8.toNat_ofNat']; omega)
    have high : (b.toNat + 256 * toNatLittle rest) / 256 = toNatLittle rest := by omega
    rw [toNatLittle, List.length_cons, ofNatLittle, low, high, ih]

end Bytes

namespace Octets

def toBytes {n : Nat} (o : Octets n) : Bytes := o.toList

def zero (n : Nat) : Octets n := Vector.replicate n 0

def xor {n : Nat} (a b : Octets n) : Octets n := Vector.zipWith (· ^^^ ·) a b

/-- The low `n` bytes of a number, least significant first. -/
def ofNatLittle (n value : Nat) : Octets n :=
  ⟨(Bytes.ofNatLittle n value).toArray, by simp [Bytes.length_ofNatLittle]⟩

def toNatLittle {n : Nat} (o : Octets n) : Nat := o.toBytes.toNatLittle

theorem length_toBytes {n : Nat} (o : Octets n) : o.toBytes.length = n := by
  simp [toBytes]

@[simp] theorem toOctets?_toBytes {n : Nat} (o : Octets n) :
    Bytes.toOctets? n o.toBytes = some o := by
  have h : o.toBytes.length = n := o.length_toBytes
  rw [Bytes.toOctets?, dif_pos h]
  congr 1

/-- Applying the same mask twice changes nothing. -/
theorem xor_xor_cancel {n : Nat} (a b : Octets n) : (a.xor b).xor b = a := by
  apply Vector.ext
  intro i hi
  simp [xor, UInt8.xor_assoc]

theorem xor_comm {n : Nat} (a b : Octets n) : a.xor b = b.xor a := by
  apply Vector.ext
  intro i hi
  simp [xor, UInt8.xor_comm]

end Octets

end PrivateHistogram

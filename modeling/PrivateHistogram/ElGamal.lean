import PrivateHistogram.KeyGroup
import PrivateHistogram.Json.Codec

/-!
Encryption of group elements that can be re-keyed without being opened.

A ciphertext of `m` under the key `y` is `(r·g, m + r·y)`. Multiplying both parts by a secret `s` gives
a ciphertext of `s·m`, and the order in which two secrets are applied does not matter: this is what
lets two helpers agree on a blinded bucket key that neither of them could compute alone. Adding an
encryption of zero makes the result unlinkable.
-/

namespace PrivateHistogram.ElGamal

inductive Error
  /-- No encoding of a group element. -/
  | invalidGroupElement
  /-- No encoding of a scalar, or zero where that is excluded. -/
  | invalidScalar
deriving DecidableEq, Repr

def Error.message : Error → String
  | .invalidGroupElement => "invalid group element encoding"
  | .invalidScalar => "invalid scalar encoding"

instance : ToString Error := ⟨Error.message⟩

/-- The group element that bytes encode. -/
def decodePoint (G : KeyGroup) (o : Octets 32) : Except Error G.Point :=
  match G.decode? o with
  | some p => .ok p
  | none => .error .invalidGroupElement

structure PrivateKey where
  scalar : Scalar
deriving DecidableEq

structure PublicKey (G : KeyGroup) where
  point : G.Point

/-- A helper's exponent for re-keying, which is not zero. -/
structure Secret where
  scalar : Scalar
  ne_zero : scalar ≠ 0
deriving DecidableEq

/-- A ciphertext as it is sent, with both group elements encoded. -/
structure Ciphertext where
  c1 : Octets 32
  c2 : Octets 32
deriving DecidableEq

namespace PrivateKey

def ofOctets (o : Octets 32) : Except Error PrivateKey :=
  match Scalar.ofOctets? o with
  | some s => .ok ⟨s⟩
  | none => .error .invalidScalar

def toOctets (k : PrivateKey) : Octets 32 := k.scalar.toOctets

def publicKey (G : KeyGroup) (k : PrivateKey) : PublicKey G := ⟨G.multiply k.scalar G.generator⟩

/-- Private keys are not shown. -/
def describe (_ : PrivateKey) : String := "ElGamalPrivateKey(redacted)"

def draw : Draw PrivateKey := fun tape =>
  let (s, rest) := Scalar.draw tape
  (⟨s⟩, rest)

instance : Codec PrivateKey where
  encode k := .hex k.toOctets.toBytes
  decode? j := do
    let s ← Scalar.ofOctets? (← j.toOctets? 32)
    some ⟨s⟩

end PrivateKey

namespace PublicKey

variable {G : KeyGroup}

def ofOctets (G : KeyGroup) (o : Octets 32) : Except Error (PublicKey G) := do
  let p ← decodePoint G o
  return ⟨p⟩

def toOctets (k : PublicKey G) : Octets 32 := G.encode k.point

def describe (k : PublicKey G) : String := s!"ElGamalPublicKey {k.toOctets.toHex}"

instance : Codec (PublicKey G) where
  encode k := .hex k.toOctets.toBytes
  decode? j := do
    let p ← G.decode? (← j.toOctets? 32)
    some ⟨p⟩

end PublicKey

namespace Secret

/-- The secret for a scalar that is not zero. -/
def ofScalar? (s : Scalar) : Option Secret := if h : s ≠ 0 then some ⟨s, h⟩ else none

def ofOctets (o : Octets 32) : Except Error Secret :=
  match (Scalar.ofOctets? o).bind ofScalar? with
  | some s => .ok s
  | none => .error .invalidScalar

def toOctets (s : Secret) : Octets 32 := s.scalar.toOctets

def describe (_ : Secret) : String := "ExponentSecret(redacted)"

def one : Secret := ⟨1, by decide⟩

/-- A fresh secret: scalars are drawn until one is not zero. -/
def draw : Draw Secret := fun tape =>
  ByteSource.untilSome (fun tape =>
    let (s, rest) := Scalar.draw tape
    (ofScalar? s, rest)) one ByteSource.retries tape

def apply (G : KeyGroup) (s : Secret) (p : G.Point) : G.Point := G.multiply s.scalar p

instance : Codec Secret where
  encode s := .hex s.toOctets.toBytes
  decode? j := do
    let s ← Scalar.ofOctets? (← j.toOctets? 32)
    ofScalar? s

end Secret

namespace Ciphertext

instance : Codec Ciphertext where
  encode c := .record [("c1", .hex c.c1.toBytes), ("c2", .hex c.c2.toBytes)]
  decode? j := do
    let [c1, c2] ← j.fields? ["c1", "c2"] | none
    some { c1 := ← c1.bind (Json.toOctets? 32), c2 := ← c2.bind (Json.toOctets? 32) }

variable (G : KeyGroup)

def ofPoints (a b : G.Point) : Ciphertext := ⟨G.encode a, G.encode b⟩

/-- Both group elements, of which the first is checked first. -/
def points (c : Ciphertext) : Except Error (G.Point × G.Point) := do
  let a ← decodePoint G c.c1
  let b ← decodePoint G c.c2
  return (a, b)

end Ciphertext

variable (G : KeyGroup)

/-- The encryption of a group element with the nonce `r`. -/
def encryptWith (k : PublicKey G) (m : G.Point) (r : Scalar) : Ciphertext :=
  .ofPoints G (G.multiply r G.generator) (G.add m (G.multiply r k.point))

def encrypt (k : PublicKey G) (m : G.Point) : Draw Ciphertext := fun tape =>
  let (r, rest) := Scalar.draw tape
  (encryptWith G k m r, rest)

/-- The group element that a ciphertext encrypts. -/
def decrypt (k : PrivateKey) (c : Ciphertext) : Except Error G.Point := do
  let (a, b) ← c.points G
  return G.sub b (G.multiply k.scalar a)

/-- A ciphertext of the same element multiplied by the secret. -/
def exponentiate (c : Ciphertext) (s : Secret) : Except Error Ciphertext := do
  let (a, b) ← c.points G
  return .ofPoints G (s.apply G a) (s.apply G b)

/-- A ciphertext of the same element multiplied by the secret, with an encryption of zero under the
nonce `r` added. -/
def rerandomizeWith (c : Ciphertext) (k : PublicKey G) (r : Scalar) : Except Error Ciphertext := do
  let (a, b) ← c.points G
  return .ofPoints G (G.add a (G.multiply r G.generator)) (G.add b (G.multiply r k.point))

/-- A ciphertext of the same element multiplied by the secret that cannot be linked to the one it was
made from. The key is the one that the ciphertext is encrypted under. -/
def exponentiateAndRerandomize (c : Ciphertext) (s : Secret) (k : PublicKey G) : TryDraw Error Ciphertext :=
  fun tape =>
    match exponentiate G c s with
    | .error e => (.error e, tape)
    | .ok c =>
      let (r, rest) := Scalar.draw tape
      (rerandomizeWith G c k r, rest)

end PrivateHistogram.ElGamal

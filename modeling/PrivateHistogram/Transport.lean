import PrivateHistogram.Json.Codec
import PrivateHistogram.RandomTape

/-!
Sealing messages to a helper.

Partial reports are sealed to the helper they belong to and key halves to the helper that evaluates
them. An `info` string binds a sealed message to its purpose and its report. Everything that seals is
written for any scheme with the operations below; what it needs of them is said in `Transport.Lawful`.
-/

namespace PrivateHistogram

/-- A sealed message: the encapsulated key and the encrypted message with its tag. -/
structure Sealed where
  encapsulatedKey : Bytes
  payload : Bytes
deriving DecidableEq

namespace Sealed

def encode (s : Sealed) : Json :=
  .record [("encapsulated_key", .hex s.encapsulatedKey), ("payload", .hex s.payload)]

def decode? (j : Json) : Option Sealed := do
  let [key, payload] ← j.fields? ["encapsulated_key", "payload"] | none
  some { encapsulatedKey := ← key.bind Json.toHex?, payload := ← payload.bind Json.toHex? }

instance : Codec Sealed := ⟨encode, decode?⟩

end Sealed

namespace Transport

/-- Why a message cannot be sealed or opened. -/
inductive Error
  /-- Wrong key, wrong `info` or tampered bytes. -/
  | decryption
  | encryption
  | invalidKey
deriving DecidableEq, Repr

def Error.message : Error → String
  | .decryption => "failed to decrypt ciphertext"
  | .encryption => "failed to encrypt plaintext"
  | .invalidKey => "invalid transport key encoding"

instance : ToString Error := ⟨Error.message⟩

end Transport

/-- A scheme with public keys and private keys of 32 bytes. -/
structure Transport where
  /-- The private key that random bytes give. -/
  derive : Octets 32 → Octets 32
  publicKey : Octets 32 → Octets 32
  /-- Seals a message to a public key with an ephemeral key that random bytes give. -/
  sealWith? : (publicKey : Octets 32) → (info message : Bytes) → (ephemeral : Octets 32) → Option Sealed
  open? : (privateKey : Octets 32) → (info : Bytes) → Sealed → Option Bytes

namespace Transport

/-- Sealing succeeds for the public key of every private key that is drawn, and opening with the
private key and the same `info` gives the message back. -/
structure Lawful (T : Transport) : Prop where
  open_seal : ∀ random info message ephemeral, ∃ sealed,
    T.sealWith? (T.publicKey (T.derive random)) info message ephemeral = some sealed ∧
      T.open? (T.derive random) info sealed = some message

structure PublicKey where
  bytes : Octets 32
deriving DecidableEq

structure PrivateKey where
  bytes : Octets 32
deriving DecidableEq

namespace PublicKey

/-- Any 32 bytes are a public key. -/
def ofBytes (bytes : Bytes) : Except Error PublicKey :=
  match bytes.toOctets? 32 with
  | some o => .ok ⟨o⟩
  | none => .error .invalidKey

def describe (k : PublicKey) : String := s!"TransportPublicKey {k.bytes.toHex}"

instance : Codec PublicKey where
  encode k := .hex k.bytes.toBytes
  decode? j := (j.toOctets? 32).map PublicKey.mk

end PublicKey

namespace PrivateKey

/-- Any 32 bytes are a private key. -/
def ofBytes (bytes : Bytes) : Except Error PrivateKey :=
  match bytes.toOctets? 32 with
  | some o => .ok ⟨o⟩
  | none => .error .invalidKey

/-- Private keys are not shown. -/
def describe (_ : PrivateKey) : String := "TransportPrivateKey(redacted)"

instance : Codec PrivateKey where
  encode k := .hex k.bytes.toBytes
  decode? j := (j.toOctets? 32).map PrivateKey.mk

end PrivateKey

variable (T : Transport)

def publicKeyOf (k : PrivateKey) : PublicKey := ⟨T.publicKey k.bytes⟩

def drawKey : Draw PrivateKey := fun tape =>
  let (random, rest) := tape.octets 32
  (⟨T.derive random⟩, rest)

def sealTo (k : PublicKey) (info message : Bytes) : TryDraw Error Sealed := fun tape =>
  let (ephemeral, rest) := tape.octets 32
  match T.sealWith? k.bytes info message ephemeral with
  | some sealed => (.ok sealed, rest)
  | none => (.error .encryption, rest)

def openWith (k : PrivateKey) (info : Bytes) (sealed : Sealed) : Except Error Bytes :=
  match T.open? k.bytes info sealed with
  | some message => .ok message
  | none => .error .decryption

end Transport

end PrivateHistogram

import PrivateHistogram.ElGamal
import PrivateHistogram.Suite

/-!
The keys of a helper.

A helper owns a decryption key for blinded bucket keys, a secret for re-keying them and a private key
by which messages are sealed to it. Clients and the peer see only the two public keys.
-/

namespace PrivateHistogram

/-- The private keys of one helper. -/
structure KeyMaterial where
  elGamal : ElGamal.PrivateKey
  secret : ElGamal.Secret
  transport : Transport.PrivateKey
deriving DecidableEq

/-- The public keys of one helper. -/
structure PublicInfo (S : Suite) where
  elGamal : ElGamal.PublicKey S.group
  transport : Transport.PublicKey

namespace KeyMaterial

def draw (S : Suite) : Draw KeyMaterial := do
  let elGamal ← ElGamal.PrivateKey.draw
  let transport ← S.transport.drawKey
  let secret ← ElGamal.Secret.draw
  return { elGamal, secret, transport }

/-- What clients and the peer have to know. -/
def publicInfo (S : Suite) (k : KeyMaterial) : PublicInfo S :=
  { elGamal := k.elGamal.publicKey S.group, transport := S.transport.publicKeyOf k.transport }

/-- A description that does not show the keys. -/
def describe (k : KeyMaterial) : String :=
  "ServerKeyMaterial \x7b elgamal_private_key: " ++ k.elGamal.describe ++ ", secret: " ++ k.secret.describe ++
    ", transport_private_key: " ++ k.transport.describe ++ " \x7d"

instance : Codec KeyMaterial where
  encode k :=
    .record [("elgamal_private_key", Codec.encode k.elGamal), ("secret", Codec.encode k.secret),
      ("transport_private_key", Codec.encode k.transport)]
  decode? j := do
    let [elGamal, secret, transport] ← j.fields? ["elgamal_private_key", "secret", "transport_private_key"] | none
    some { elGamal := ← Codec.field? elGamal, secret := ← Codec.field? secret, transport := ← Codec.field? transport }

end KeyMaterial

namespace PublicInfo

variable {S : Suite}

def describe (p : PublicInfo S) : String :=
  "ServerPublicInfo \x7b elgamal_public_key: " ++ p.elGamal.describe ++ ", transport_public_key: " ++
    p.transport.describe ++ " \x7d"

instance : Codec (PublicInfo S) where
  encode p :=
    .record [("elgamal_public_key", Codec.encode p.elGamal), ("transport_public_key", Codec.encode p.transport)]
  decode? j := do
    let [elGamal, transport] ← j.fields? ["elgamal_public_key", "transport_public_key"] | none
    some { elGamal := ← Codec.field? elGamal, transport := ← Codec.field? transport }

end PublicInfo

end PrivateHistogram

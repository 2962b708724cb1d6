import PrivateHistogram.Transport
import PrivateHistogram.Cipher.Gcm
import PrivateHistogram.Curve.Montgomery
import PrivateHistogram.Hash.Hkdf

/-!
Hybrid public key encryption in base mode, with key agreement on the Montgomery curve, key derivation
over SHA-256 and AES with a 128-bit key in Galois counter mode.

Private keys are kept as derived; their bits are fixed up only in the scalar multiplication. A key
agreement that gives zero, as a public key of small order makes it do, is refused.
-/

namespace PrivateHistogram

namespace Hpke

/-- The name of the key encapsulation. -/
def kemSuite : Bytes := Bytes.ofText "KEM" ++ Bytes.ofNatBig 2 0x0020

def suite : Bytes :=
  Bytes.ofText "HPKE" ++ Bytes.ofNatBig 2 0x0020 ++ Bytes.ofNatBig 2 0x0001 ++ Bytes.ofNatBig 2 0x0001

def labeledExtract (suite salt : Bytes) (label : String) (input : Bytes) : Bytes :=
  Hash.hkdfExtract salt (Bytes.ofText "HPKE-v1" ++ suite ++ Bytes.ofText label ++ input)

def labeledExpand (suite key : Bytes) (label : String) (info : Bytes) (size : Nat) : Bytes :=
  Hash.hkdfExpand key (Bytes.ofNatBig 2 size ++ Bytes.ofText "HPKE-v1" ++ suite ++ Bytes.ofText label ++ info) size

def derive (random : Octets 32) : Octets 32 :=
  (labeledExpand kemSuite (labeledExtract kemSuite [] "dkp_prk" random.toBytes) "sk" [] 32).fit 32

/-- The secret that two parties share, if their keys agree on one. -/
def sharedSecret? (privateKey publicKey : Octets 32) (context : Bytes) : Option Bytes :=
  let agreed := Montgomery.multiply privateKey publicKey
  if agreed = Octets.zero 32 then none
  else some (labeledExpand kemSuite (labeledExtract kemSuite [] "eae_prk" agreed.toBytes) "shared_secret" context 32)

/-- The encryption key and the nonce for a shared secret. -/
def schedule (secret info : Bytes) : Aes.Key × Bytes :=
  let context := 0x00 :: (labeledExtract suite [] "psk_id_hash" [] ++ labeledExtract suite [] "info_hash" info)
  let key := labeledExtract suite secret "secret" []
  (Aes.Key.ofOctets ((labeledExpand suite key "key" context 16).fit 16), labeledExpand suite key "base_nonce" context 12)

def sealWith? (publicKey : Octets 32) (info message : Bytes) (random : Octets 32) : Option Sealed := do
  let ephemeral := derive random
  let encapsulated := (Montgomery.multiplyBase ephemeral).toBytes
  let secret ← sharedSecret? ephemeral publicKey (encapsulated ++ publicKey.toBytes)
  let (key, nonce) := schedule secret info
  some { encapsulatedKey := encapsulated, payload := Gcm.encrypt key nonce [] message }

def open? (privateKey : Octets 32) (info : Bytes) (sealed : Sealed) : Option Bytes := do
  let encapsulated ← sealed.encapsulatedKey.toOctets? 32
  let publicKey := Montgomery.multiplyBase privateKey
  let secret ← sharedSecret? privateKey encapsulated (encapsulated.toBytes ++ publicKey.toBytes)
  let (key, nonce) := schedule secret info
  Gcm.decrypt? key nonce [] sealed.payload

end Hpke

/-- Hybrid public key encryption as the scheme by which messages are sealed. -/
def Transport.hpke : Transport where
  derive := Hpke.derive
  publicKey := Montgomery.multiplyBase
  sealWith? := Hpke.sealWith?
  open? := Hpke.open?

end PrivateHistogram

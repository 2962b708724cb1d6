import PrivateHistogram.Hash.Sha2

/-!
Keyed hashing and key derivation over SHA-256: HMAC and the two steps of HKDF.
-/

namespace PrivateHistogram.Hash

/-- The keyed hash of a message. -/
def hmac (key message : Bytes) : Bytes :=
  let short := if 64 < key.length then sha256 key else key
  let full := short ++ List.replicate (64 - short.length) 0
  sha256 (full.map (· ^^^ 0x5c) ++ sha256 (full.map (· ^^^ 0x36) ++ message))

/-- A key of full entropy out of some input that holds enough of it. -/
def hkdfExtract (salt input : Bytes) : Bytes := hmac salt input

/-- `count` blocks of output from block number `index` on, each hashed with the one before it. -/
def hkdfBlocks (key info : Bytes) : (count index : Nat) → (previous : Bytes) → Bytes
  | 0, _, _ => []
  | count + 1, index, previous =>
    let block := hmac key (previous ++ info ++ [UInt8.ofNat index])
    block ++ hkdfBlocks key info count (index + 1) block

/-- `size` bytes derived from a key for the purpose that `info` names. -/
def hkdfExpand (key info : Bytes) (size : Nat) : Bytes :=
  (hkdfBlocks key info ((size + 31) / 32) 1 []).take size

end PrivateHistogram.Hash

import PrivateHistogram.Cipher.Aes
import PrivateHistogram.Hash.Keccak
import PrivateHistogram.RandomTape

/-!
Streams of pseudorandom bytes, one for each seed of sixteen bytes.

A stream is made of hashed blocks. Block number `i` is the seed with `i` added, by exclusive or, to its
first eight bytes, and is hashed with AES under a key that is fixed by a domain separation tag and a
binder: different tags give independent streams.
-/

namespace PrivateHistogram

/-- Sixteen bytes that determine a stream. -/
abbrev Seed := Octets 16

/-- The key of a family of streams. -/
structure StreamKey where
  cipher : Aes.Key

namespace StreamKey

/-- The key for a tag and a binder. The length of the tag in front of both keeps them apart. -/
def derive (tag binder : Bytes) : StreamKey :=
  let size := min tag.length 0xffff
  ⟨Aes.Key.ofOctets ((Hash.shake128 16 (Bytes.ofNatBig 2 size ++ tag ++ binder)).fit 16)⟩

/-- The hash of a block: with `h` and `l` its upper and lower half, the encryption of `σ = (h, h + l)`
plus `σ`, where plus is exclusive or. -/
def hashBlock (key : StreamKey) (block : Octets 16) : Octets 16 :=
  let sigma : Octets 16 := Vector.ofFn fun i =>
    if h : i.val < 8 then block[i.val + 8] else block[i.val] ^^^ block[i.val - 8]
  (Aes.encrypt key.cipher sigma).xor sigma

/-- Block number `i` of the stream of a seed, before it is hashed. -/
def blockAt (seed : Seed) (i : Nat) : Octets 16 := seed.xor (Octets.ofNatLittle 16 (i % UInt64.size))

end StreamKey

/-- A stream and how many of its bytes have been read. -/
structure SeedStream where
  key : StreamKey
  seed : Seed
  consumed : Nat

namespace SeedStream

/-- The stream of a seed, of which nothing has been read. -/
def start (key : StreamKey) (seed : Seed) : SeedStream := ⟨key, seed, 0⟩

/-- The hashed blocks with the numbers `first, …, first + count - 1`. -/
def blocks (key : StreamKey) (seed : Seed) (first count : Nat) : Bytes :=
  (List.range' first count).flatMap fun i => (key.hashBlock (StreamKey.blockAt seed i)).toBytes

/-- The next `n` bytes: the blocks that hold them, without the bytes in front and behind. -/
def take (n : Nat) (s : SeedStream) : Bytes × SeedStream :=
  let first := s.consumed / 16
  let past := (s.consumed + n + 15) / 16
  (((blocks s.key s.seed first (past - first)).drop (s.consumed % 16)).take n, { s with consumed := s.consumed + n })

instance : ByteSource SeedStream := ⟨take⟩

def takeSeed (s : SeedStream) : Seed × SeedStream :=
  let (bytes, rest) := s.take 16
  (bytes.fit 16, rest)

end SeedStream

end PrivateHistogram

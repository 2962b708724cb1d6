import Mathlib
import PrivateHistogram.Join

/-! Aggregation identifiers are whole hashes: the hash has 32 bytes, so cutting it to 32 bytes loses nothing, and
    two blinded keys have one identifier only if the hash collides on them (`aggregationId_injective_of`). -/

namespace PrivateHistogram

namespace Hash.Keccak

theorem size_round (a : Lanes) (constant : UInt64) : (round a constant).size = 25 := by
  simp [round, tabulate]

theorem size_permute {a : Lanes} (h : a.size = 25) : (permute a).size = 25 := by
  rw [permute]
  generalize roundConstants = constants
  exact List.foldlRecOn (motive := fun a => a.size = 25) constants round h fun a _ constant _ => size_round a constant

theorem size_absorb {state : Lanes} (h : state.size = 25) (block : Bytes) : (absorb state block).size = 25 := by
  refine size_permute ?_
  rw [Array.size_mapIdx, h]

theorem length_squeeze {state : Lanes} (h : state.size = 25) (rate : ℕ) :
    (squeeze rate state).length = 8 * min (rate / 8) 25 := by
  have hword : ∀ word : UInt64, (Bytes.ofNatLittle 8 word.toNat).length = 8 := fun _ => Bytes.length_ofNatLittle _ _
  rw [squeeze, List.length_flatMap, funext hword, List.map_const', List.sum_replicate, List.length_take,
    Array.length_toList, h, smul_eq_mul, Nat.mul_comm]

end Hash.Keccak

theorem Hash.length_sha3_256 (message : Bytes) : (sha3_256 message).length = 32 := by
  have hstate : ∀ blocks : List Bytes, (blocks.foldl Keccak.absorb (Array.replicate 25 0)).size = 25 := fun blocks =>
    List.foldlRecOn (motive := fun state => state.size = 25) blocks Keccak.absorb Array.size_replicate
      fun state h block _ => Keccak.size_absorb h block
  simp only [sha3_256, Keccak.sponge, Keccak.output, List.append_nil, List.length_take, Keccak.length_squeeze (hstate _)]
  rfl

namespace Join

/-- Blinded keys with one identifier are equal if the hash does not collide on what is hashed for them. -/
theorem aggregationId_injective_of {a b : Octets 32}
    (hash : Hash.sha3_256 (aggregationIdTag ++ a.toBytes) = Hash.sha3_256 (aggregationIdTag ++ b.toBytes) →
      aggregationIdTag ++ a.toBytes = aggregationIdTag ++ b.toBytes)
    (h : aggregationId a = aggregationId b) : a = b := by
  have hlist := congrArg Vector.toList h
  rw [aggregationId, aggregationId, Bytes.toList_fit (Hash.length_sha3_256 _),
    Bytes.toList_fit (Hash.length_sha3_256 _)] at hlist
  have hbytes := List.append_cancel_left (hash hlist)
  exact Vector.toList_inj.mp hbytes

end Join

end PrivateHistogram

import PrivateHistogram.KeyGroup
import PrivateHistogram.Proofs.Group.Scalars

/-! What the laws of the group give: differences undo sums, secrets commute, and a scalar that is not zero
    keeps different elements apart (`multiply_injective`). -/

namespace PrivateHistogram.KeyGroup.Lawful
variable {G : KeyGroup} (hG : G.Lawful)
include hG

theorem add_zero (a : G.Point) : G.add a G.zero = a := by
  rw [hG.add_comm, hG.zero_add]

theorem add_neg (a : G.Point) : G.add a (G.neg a) = G.zero := by
  rw [hG.add_comm, hG.neg_add]

theorem add_sub_cancel (a b : G.Point) : G.sub (G.add a b) b = a := by
  rw [sub, hG.add_assoc, hG.add_neg, hG.add_zero]

theorem multiply_comm (s t : Scalar) (p : G.Point) :
    G.multiply s (G.multiply t p) = G.multiply t (G.multiply s p) := by
  rw [← hG.mul_multiply, ← hG.mul_multiply, Scalar.mul_comm]

theorem multiply_injective {s : Scalar} (hs : s ≠ 0) : Function.Injective (G.multiply s) := by
  obtain ⟨t, ht⟩ := Scalar.exists_mul_eq_one hs
  intro a b hab
  rw [← hG.one_multiply a, ← hG.one_multiply b, ← ht, hG.mul_multiply, hG.mul_multiply, hab]

theorem encode_injective : Function.Injective G.encode := by
  intro a b hab
  have h := congrArg G.decode? hab
  rw [hG.decode_encode, hG.decode_encode] at h
  exact Option.some.inj h

end PrivateHistogram.KeyGroup.Lawful

import PrivateHistogram.ElGamal
import PrivateHistogram.Proofs.Group.Laws

/-! Every operation on a ciphertext is an operation on what it encrypts: applying a secret multiplies it,
    adding an encryption of zero keeps it, and decryption under the matching key gives it back. So a
    ciphertext that is made from an encryption is again one, with another nonce. -/

namespace PrivateHistogram.ElGamal
variable {G : KeyGroup} (hG : G.Lawful)
include hG

theorem points_ofPoints (a b : G.Point) : (Ciphertext.ofPoints G a b).points G = .ok (a, b) := by
  simp only [Ciphertext.points, Ciphertext.ofPoints, decodePoint, hG.decode_encode]
  rfl

theorem decrypt_encryptWith (k : PrivateKey) (m : G.Point) (r : Scalar) :
    decrypt G k (encryptWith G (k.publicKey G) m r) = .ok m := by
  rw [decrypt, encryptWith, points_ofPoints hG]
  change Except.ok _ = _
  rw [PrivateKey.publicKey, hG.multiply_comm r, hG.add_sub_cancel]

theorem exponentiate_encryptWith (k : PublicKey G) (m : G.Point) (r : Scalar) (s : Secret) :
    exponentiate G (encryptWith G k m r) s = .ok (encryptWith G k (s.apply G m) (s.scalar * r)) := by
  rw [exponentiate, encryptWith, points_ofPoints hG]
  change Except.ok _ = _
  simp only [Secret.apply, encryptWith, hG.multiply_add, hG.mul_multiply]

theorem rerandomizeWith_encryptWith (k : PublicKey G) (m : G.Point) (r r' : Scalar) :
    rerandomizeWith G (encryptWith G k m r) k r' = .ok (encryptWith G k m (r + r')) := by
  rw [rerandomizeWith, encryptWith, points_ofPoints hG]
  change Except.ok _ = _
  simp only [encryptWith, hG.add_multiply, hG.add_assoc]

/-- What is sent to the peer is again an encryption, of the element multiplied by the secret. -/
theorem exponentiateAndRerandomize_encryptWith (k : PublicKey G) (m : G.Point) (r : Scalar) (s : Secret)
    (tape : RandomTape) :
    exponentiateAndRerandomize G (encryptWith G k m r) s k tape =
      (.ok (encryptWith G k (s.apply G m) (s.scalar * r + (Scalar.draw tape).1)), (Scalar.draw tape).2) := by
  rw [exponentiateAndRerandomize, exponentiate_encryptWith hG]
  simp only [rerandomizeWith_encryptWith hG]
  rfl

end PrivateHistogram.ElGamal

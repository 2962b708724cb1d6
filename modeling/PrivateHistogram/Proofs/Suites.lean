import PrivateHistogram.Keys
import PrivateHistogram.Proofs.Group.Scalars

/-! A suite that keeps the laws (`Suite.additive_lawful`), so what is asked of a suite can be met: the scalars
    themselves as the group, and messages sealed by the key and the `info` they are meant for. -/

namespace PrivateHistogram

/-- The scalars as a group, which hides nothing. -/
def KeyGroup.additive : KeyGroup where
  Point := Scalar
  zero := 0
  add a b := a + b
  neg a := .ofNat (Scalar.order - a.val)
  multiply s p := s * p
  generator := 1
  encode := Scalar.toOctets
  decode? := Scalar.ofOctets?
  ofBytes bytes := .ofNat bytes.toNatLittle

theorem Scalar.ofOctets?_toOctets (s : Scalar) : ofOctets? s.toOctets = some s := by
  have hval : s.toOctets.toNatLittle = s.val := by
    change Bytes.toNatLittle (Bytes.ofNatLittle 32 s.val) = s.val
    rw [Bytes.toNatLittle_ofNatLittle]
    exact Nat.mod_eq_of_lt (s.isLt.trans (by decide))
  have hlt : s.toOctets.toNatLittle < order := hval ▸ s.isLt
  rw [ofOctets?, dif_pos hlt]
  exact congrArg some (residue_injective (congrArg Nat.cast hval))

theorem Scalar.residue_ofNat_sub (a : Scalar) : (ofNat (order - a.val)).residue = -a.residue := by
  rw [residue_ofNat, Nat.cast_sub (show a.val ≤ order from a.isLt.le), ZMod.natCast_self, zero_sub]
  rfl

section
variable (a b c : Scalar)

theorem Scalar.add_comm : a + b = b + a :=
  residue_injective (by rw [residue_add, residue_add]; ring)

theorem Scalar.add_assoc : a + b + c = a + (b + c) :=
  residue_injective (by simp only [residue_add]; ring)

theorem Scalar.zero_add : 0 + a = a :=
  residue_injective (by rw [residue_add, residue_zero]; ring)

theorem Scalar.ofNat_sub_add : ofNat (order - a.val) + a = 0 :=
  residue_injective (by rw [residue_add, residue_ofNat_sub, residue_zero]; ring)

theorem Scalar.zero_mul : 0 * a = 0 :=
  residue_injective (by rw [residue_mul, residue_zero]; ring)

theorem Scalar.one_mul : 1 * a = a :=
  residue_injective (by rw [residue_mul, residue_one]; ring)

theorem Scalar.add_mul : (a + b) * c = a * c + b * c :=
  residue_injective (by simp only [residue_mul, residue_add]; ring)

theorem Scalar.mul_assoc : a * b * c = a * (b * c) :=
  residue_injective (by simp only [residue_mul]; ring)

theorem Scalar.mul_add : a * (b + c) = a * b + a * c :=
  residue_injective (by simp only [residue_mul, residue_add]; ring)

end

theorem KeyGroup.additive_lawful : KeyGroup.additive.Lawful where
  add_comm := Scalar.add_comm
  add_assoc := Scalar.add_assoc
  zero_add := Scalar.zero_add
  neg_add := Scalar.ofNat_sub_add
  zero_multiply := Scalar.zero_mul
  one_multiply := Scalar.one_mul
  add_multiply := Scalar.add_mul
  mul_multiply := Scalar.mul_assoc
  multiply_add := Scalar.mul_add
  decode_encode p := by
    dsimp only [additive]
    exact Scalar.ofOctets?_toOctets p

/-- Sealed messages in the clear, which open only under the key and the `info` they are sealed for. -/
def Transport.plain : Transport where
  derive random := random
  publicKey key := key
  sealWith? key info message _ := some ⟨key.toBytes ++ info, message⟩
  open? key info sealed := if sealed.encapsulatedKey = key.toBytes ++ info then some sealed.payload else none

theorem Transport.plain_lawful : Transport.plain.Lawful where
  open_seal _ _ _ _ := ⟨_, rfl, if_pos rfl⟩

theorem Transport.openWith_plain (k : PrivateKey) (info message : Bytes) :
    plain.openWith k info ⟨k.bytes.toBytes ++ info, message⟩ = .ok message := by
  simp [openWith, plain]

/-- A suite that keeps the laws, and is of no use for anything else. -/
def Suite.additive : Suite := ⟨.additive, .plain, .standard BucketShare⟩

theorem Suite.additive_lawful : Suite.additive.Lawful where
  group := KeyGroup.additive_lawful
  transport := Transport.plain_lawful

/-- The same suite with a generator that takes no notice of the seeds, so that shares can be worked out. -/
def Suite.constant : Suite :=
  { Suite.additive with generator := ⟨fun _ => ⟨Octets.zero 16, Octets.zero 16, false, true⟩, fun seed => (seed, ⟨1, 1⟩)⟩ }

def KeyMaterial.additiveOne : KeyMaterial :=
  ⟨⟨.ofNat 2⟩, ⟨.ofNat 3, by decide⟩, ⟨Octets.ofNatLittle 32 1⟩⟩

def KeyMaterial.additiveTwo : KeyMaterial :=
  ⟨⟨.ofNat 5⟩, ⟨.ofNat 4, by decide⟩, ⟨Octets.ofNatLittle 32 2⟩⟩

end PrivateHistogram

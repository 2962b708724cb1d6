import PrivateHistogram.RandomTape

/-!
Scalars: the integers modulo the prime order of the group, held as the number below the order.
-/

namespace PrivateHistogram

/-- An integer modulo the order of the group. -/
structure Scalar where
  val : Nat
  isLt : val < 0x1000000000000000000000000000000014def9dea2f79cd65812631a5cf5d3ed
deriving DecidableEq

namespace Scalar

def order : Nat := 0x1000000000000000000000000000000014def9dea2f79cd65812631a5cf5d3ed

def ofNat (n : Nat) : Scalar := ⟨n % order, Nat.mod_lt _ (by decide)⟩

instance : Zero Scalar := ⟨⟨0, by decide⟩⟩
instance : One Scalar := ⟨⟨1, by decide⟩⟩
instance : Inhabited Scalar := ⟨0⟩
instance : Add Scalar := ⟨fun a b => ofNat (a.val + b.val)⟩
instance : Mul Scalar := ⟨fun a b => ofNat (a.val * b.val)⟩

/-- The 32 bytes of a scalar, least significant first. -/
def toOctets (s : Scalar) : Octets 32 := Octets.ofNatLittle 32 s.val

/-- The scalar that 32 bytes spell, if they spell a number below the order. -/
def ofOctets? (o : Octets 32) : Option Scalar :=
  if h : o.toNatLittle < order then some ⟨o.toNatLittle, h⟩ else none

/-- A random scalar: 64 bytes as a number, reduced. -/
def draw : Draw Scalar := fun tape =>
  let (bytes, rest) := tape.take 64
  (ofNat bytes.toNatLittle, rest)

end Scalar

end PrivateHistogram

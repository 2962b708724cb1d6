import PrivateHistogram.Curve.Ristretto

/-!
The group in which bucket keys are blinded.

Everything that blinds, encrypts or compares bucket keys is written for any group with the operations
below; what it needs of them is said in `KeyGroup.Lawful`. The group in use is the Ristretto group.
-/

namespace PrivateHistogram

/-- A group of order `Scalar.order`, written additively, with an encoding of its elements and a map
from byte strings onto it. -/
structure KeyGroup where
  Point : Type
  zero : Point
  add : Point → Point → Point
  neg : Point → Point
  multiply : Scalar → Point → Point
  generator : Point
  encode : Point → Octets 32
  decode? : Octets 32 → Option Point
  ofBytes : Bytes → Point

namespace KeyGroup

def sub (G : KeyGroup) (a b : G.Point) : G.Point := G.add a (G.neg b)

/-- The commutative group laws, a scalar multiplication that respects both of its arguments, and an
encoding that loses nothing. -/
structure Lawful (G : KeyGroup) : Prop where
  add_comm : ∀ a b, G.add a b = G.add b a
  add_assoc : ∀ a b c, G.add (G.add a b) c = G.add a (G.add b c)
  zero_add : ∀ a, G.add G.zero a = a
  neg_add : ∀ a, G.add (G.neg a) a = G.zero
  zero_multiply : ∀ p, G.multiply 0 p = G.zero
  one_multiply : ∀ p, G.multiply 1 p = p
  add_multiply : ∀ s t p, G.multiply (s + t) p = G.add (G.multiply s p) (G.multiply t p)
  mul_multiply : ∀ s t p, G.multiply (s * t) p = G.multiply s (G.multiply t p)
  multiply_add : ∀ s a b, G.multiply s (G.add a b) = G.add (G.multiply s a) (G.multiply s b)
  decode_encode : ∀ p, G.decode? (G.encode p) = some p

/-- What is hashed before a bucket key. -/
def bucketKeyTag : Bytes := Bytes.ofText "conversion-aggregation bucket key to group"

/-- The Ristretto group, with bucket keys mapped onto it by a hash under a tag of its own. -/
def ristretto : KeyGroup where
  Point := Ristretto
  zero := Ristretto.zero
  add := Ristretto.add
  neg := Ristretto.neg
  multiply s := Ristretto.multiply s.val
  generator := Ristretto.generator
  encode := Ristretto.encode
  decode? := Ristretto.decode?
  ofBytes message := Ristretto.ofUniformBytes (Hash.sha512 (bucketKeyTag ++ message))

end KeyGroup

end PrivateHistogram

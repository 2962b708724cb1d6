import PrivateHistogram.Curve.Coordinate

/-!
Key agreement on the Montgomery form of the curve, by the first coordinate alone.
-/

namespace PrivateHistogram.Montgomery

open Coordinate

/-- The coordinates of two multiples of a point that differ by the point. -/
structure Ladder where
  (x2 z2 x3 z3 : Nat)

namespace Ladder

/-- One bit of the scalar: both multiples are doubled or the point is added, by the bit. -/
def step (x1 : Nat) (s : Ladder) (bit : Bool) : Ladder :=
  let s := if bit then ⟨s.x3, s.z3, s.x2, s.z2⟩ else s
  let a := add s.x2 s.z2
  let b := sub s.x2 s.z2
  let aa := square a
  let bb := square b
  let e := sub aa bb
  let da := mul (sub s.x3 s.z3) a
  let cb := mul (add s.x3 s.z3) b
  let t : Ladder :=
    ⟨mul aa bb, mul e (add aa (mul 121665 e)), square (add da cb), mul x1 (square (sub da cb))⟩
  if bit then ⟨t.x3, t.z3, t.x2, t.z2⟩ else t

end Ladder

/-- The scalar that 32 bytes stand for: a multiple of eight with bit 254 set and none above. -/
def clamp (o : Octets 32) : Nat := o.toNatLittle % Nat.pow 2 254 / 8 * 8 + Nat.pow 2 254

/-- The first coordinate of the multiple of a point. -/
def multiply (scalar point : Octets 32) : Octets 32 :=
  let n := clamp scalar
  let x1 := ofOctets point
  let s := (List.range 255).foldl (fun s i => s.step x1 (n.testBit (254 - i))) (⟨1, 0, x1, 1⟩ : Ladder)
  toOctets (mul s.x2 (inverse s.z2))

/-- The multiple of the point whose first coordinate is nine. -/
def multiplyBase (scalar : Octets 32) : Octets 32 := multiply scalar (toOctets 9)

end PrivateHistogram.Montgomery

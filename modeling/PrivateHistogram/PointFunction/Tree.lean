import PrivateHistogram.Goldilocks.Codec
import PrivateHistogram.SeedStream

/-!
The tree of seeds that a key half unfolds.

Every node has a seed and a control bit. The seed is extended to two seeds and two control bits for the
children; where the control bit is set, the correction word of the level is added to them. The
corrected seed of a child is then converted into the seed the child has and a value. Two halves that
agree at a node agree everywhere below it; where their control bits differ, the correction word makes
them agree beside the path to the point and differ by the shared value on it.
-/

namespace PrivateHistogram

/-- What can be shared: small values that are added up, and that a pseudorandom stream gives. -/
class Payload (V : Type) extends Zero V, Add V, Sub V, Neg V where
  draw : {σ : Type} → [ByteSource σ] → σ → V × σ
  /-- How many bytes a value takes in a list of values. -/
  size : Nat
  size_le : size ≤ 0xffff := by decide

/-- The laws of a commutative group. -/
class LawfulPayload (V : Type) [Payload V] : Prop where
  add_comm : ∀ a b : V, a + b = b + a
  add_assoc : ∀ a b c : V, a + b + c = a + (b + c)
  zero_add : ∀ a : V, 0 + a = a
  neg_add_cancel : ∀ a : V, -a + a = 0
  sub_eq_add_neg : ∀ a b : V, a - b = a + -b

instance : Payload Goldilocks where
  draw := Goldilocks.draw
  size := 8

instance : LawfulPayload Goldilocks where
  add_comm := Goldilocks.add_comm
  add_assoc := Goldilocks.add_assoc
  zero_add := Goldilocks.zero_add
  neg_add_cancel := Goldilocks.neg_add_cancel
  sub_eq_add_neg := Goldilocks.sub_eq_add_neg

namespace PointFunction

/-- What one party knows of a node. -/
structure NodeState where
  seed : Seed
  control : Bool
deriving DecidableEq

instance : Codec NodeState where
  encode s := .record [("seed", Codec.encode s.seed), ("ctrl", Codec.encode s.control)]
  decode? j := do
    let [seed, control] ← j.fields? ["seed", "ctrl"] | none
    some { seed := ← Codec.field? seed, control := ← Codec.field? control }

/-- A seed extended to two, each with a control bit. -/
structure ChildSeeds where
  leftSeed : Seed
  rightSeed : Seed
  leftControl : Bool
  rightControl : Bool

namespace ChildSeeds

/-- The seed for a child, the right one if `bit` is set. -/
def seed (c : ChildSeeds) (bit : Bool) : Seed := if bit then c.rightSeed else c.leftSeed

/-- The control bit for a child, the right one if `bit` is set. -/
def control (c : ChildSeeds) (bit : Bool) : Bool := if bit then c.rightControl else c.leftControl

end ChildSeeds

/-- How seeds are expanded. Point functions are right for any two functions; that a half tells nothing
about the point needs them to be pseudorandom. -/
structure Generator (V : Type) where
  extend : Seed → ChildSeeds
  convert : Seed → Seed × V

namespace Generator

def extendKey : StreamKey := .derive (Bytes.ofText "conversion-aggregation dpf extend") []

def convertKey : StreamKey := .derive (Bytes.ofText "conversion-aggregation dpf convert") []

/-- Seeds expanded by streams of their own: two seeds and a byte whose low bits are the control bits, or a
seed and a value. -/
def standard (V : Type) [Payload V] : Generator V where
  extend seed :=
    let (left, s) := (SeedStream.start extendKey seed).takeSeed
    let (right, s) := s.takeSeed
    let controls := (s.take 1).1.toNatLittle
    { leftSeed := left, rightSeed := right, leftControl := controls.testBit 0, rightControl := controls.testBit 1 }
  convert seed :=
    let (next, s) := (SeedStream.start convertKey seed).takeSeed
    (next, (Payload.draw s).1)

end Generator

/-- What is added to the children of a node whose control bit is set. -/
structure CorrectionWord (V : Type) where
  seed : Seed
  leftControl : Bool
  rightControl : Bool
  value : V
deriving DecidableEq

namespace CorrectionWord

variable {V : Type}

/-- The control bit for a child, the right one if `bit` is set. -/
def control (w : CorrectionWord V) (bit : Bool) : Bool := if bit then w.rightControl else w.leftControl

instance [Codec V] : Codec (CorrectionWord V) where
  encode w :=
    .record [("seed", Codec.encode w.seed), ("ctrl_left", Codec.encode w.leftControl),
      ("ctrl_right", Codec.encode w.rightControl), ("value", Codec.encode w.value)]
  decode? j := do
    let [seed, left, right, value] ← j.fields? ["seed", "ctrl_left", "ctrl_right", "value"] | none
    some { seed := ← Codec.field? seed, leftControl := ← Codec.field? left, rightControl := ← Codec.field? right,
           value := ← Codec.field? value }

end CorrectionWord

namespace NodeState

variable {V : Type}

/-- The corrected seed and the control bit of a child, from the seeds that its parent is extended to. -/
def corrected (node : NodeState) (c : ChildSeeds) (seed : Seed) (control : Bool) (bit : Bool) : NodeState :=
  { seed := if node.control then (c.seed bit).xor seed else c.seed bit
    control := c.control bit ^^ (node.control && control) }

/-- A child, the right one if `bit` is set, and its value. -/
def child [Payload V] (g : Generator V) (node : NodeState) (c : ChildSeeds) (w : CorrectionWord V) (bit : Bool) :
    NodeState × V :=
  let kept := node.corrected c w.seed (w.control bit) bit
  let (next, weight) := g.convert kept.seed
  ({ seed := next, control := kept.control }, weight + if kept.control then w.value else 0)

end NodeState

end PointFunction

end PrivateHistogram

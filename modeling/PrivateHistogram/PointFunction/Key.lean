import PrivateHistogram.PointFunction.Hierarchy
import PrivateHistogram.PointFunction.Tree

/-!
Point functions shared between two parties.

The function is a value on every bucket above one point and zero on all others. Each party holds a half
of the key: a seed of its own, and a correction word for every level of the tree that both have in
common. Outputs of the second party are negated, so the two parties' outputs add up to the function.
-/

namespace PrivateHistogram

/-- A family of point functions: the hierarchy of levels, and how seeds are expanded. -/
structure PointFunction (V : Type) where
  domain : PointFunction.Domain
  generator : PointFunction.Generator V

namespace PointFunction

/-- The point functions in use over a domain. -/
def standard {V : Type} [Payload V] (d : Domain) : PointFunction V := ⟨d, .standard V⟩

/-- Which half of a key a party holds. -/
inductive Party
  | first
  | second
deriving DecidableEq, Repr

namespace Party

def name : Party → String
  | .first => "S0"
  | .second => "S1"

instance : Codec Party where
  encode p := .text p.name
  decode? j := do
    match ← j.toName? with
    | "S0" => some .first
    | "S1" => some .second
    | _ => none

end Party

/-- One half of a key. -/
structure KeyHalf (V : Type) where
  party : Party
  /-- The bit lengths of the levels for which the key was made. -/
  hierarchy : List UInt32
  seed : Seed
  /-- A correction word for each level of the tree. -/
  corrections : List (CorrectionWord V)
deriving DecidableEq

variable {V : Type}

namespace KeyHalf

def bitLength (k : KeyHalf V) : Nat := k.corrections.length

/-- What the party knows of the root. -/
def root (k : KeyHalf V) : NodeState := ⟨k.seed, k.party = .second⟩

instance [Codec V] : Codec (KeyHalf V) where
  encode k :=
    .record [("server_id", Codec.encode k.party), ("hierarchy", Codec.encode k.hierarchy),
      ("seed", Codec.encode k.seed), ("correction_words", Codec.encode k.corrections)]
  decode? j := do
    let [party, hierarchy, seed, corrections] ←
      j.fields? ["server_id", "hierarchy", "seed", "correction_words"] | none
    some { party := ← Codec.field? party, hierarchy := ← Codec.field? hierarchy, seed := ← Codec.field? seed,
           corrections := ← Codec.field? corrections }

end KeyHalf

/-- The way from the root to a node, the most significant of its `bits` bits first. -/
def path (bits : Nat) (id : UInt64) : List Bool := (List.range bits).map fun i => id.toNat.testBit (bits - 1 - i)

variable [Payload V]

/-- The correction word for the children of a node that the two parties know as `a` and `b`, and the child
towards the point as they know it then. -/
def correct (g : Generator V) (value : V) (bit : Bool) (a b : NodeState) : CorrectionWord V × NodeState × NodeState :=
  let ca := g.extend a.seed
  let cb := g.extend b.seed
  -- Beside the path the corrected seeds and control bits of the two parties are equal.
  let seed := (ca.seed !bit).xor (cb.seed !bit)
  let left := ca.leftControl ^^ cb.leftControl ^^ !bit
  let right := ca.rightControl ^^ cb.rightControl ^^ bit
  let control := if bit then right else left
  let ka := a.corrected ca seed control bit
  let kb := b.corrected cb seed control bit
  let (nextA, weightA) := g.convert ka.seed
  let (nextB, weightB) := g.convert kb.seed
  -- On the path exactly one party adds the value of the correction word.
  let difference := weightB - weightA + value
  ({ seed, leftControl := left, rightControl := right, value := if kb.control then -difference else difference },
    ⟨nextA, ka.control⟩, ⟨nextB, kb.control⟩)

def corrections (g : Generator V) (value : V) : List Bool → NodeState → NodeState → List (CorrectionWord V)
  | [], _, _ => []
  | bit :: rest, a, b =>
    let (word, a, b) := correct g value bit a b
    word :: corrections g value rest a b

/-- The two halves of a key with the given seeds. -/
def keysFrom (F : PointFunction V) (id : UInt64) (value : V) (seedA seedB : Seed) : KeyHalf V × KeyHalf V :=
  let words := corrections F.generator value (path F.domain.bitLength.toNat id) ⟨seedA, false⟩ ⟨seedB, true⟩
  let sizes := F.domain.hierarchy.sizes
  (⟨.first, sizes, seedA, words⟩, ⟨.second, sizes, seedB, words⟩)

/-- The two halves of a fresh key for the function that is `value` above the point `id`. -/
def generate (F : PointFunction V) (id : UInt64) (value : V) : TryDraw Error (KeyHalf V × KeyHalf V) := fun tape =>
  let bits := F.domain.bitLength
  if Nat.pow 2 bits.toNat ≤ id.toNat then (.error (.outsideDomain id bits), tape)
  else
    let (seedA, tape) := tape.octets 16
    let (seedB, tape) := tape.octets 16
    (.ok (F.keysFrom id value seedA seedB), tape)

end PointFunction

end PrivateHistogram

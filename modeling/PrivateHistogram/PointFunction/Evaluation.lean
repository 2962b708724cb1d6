import PrivateHistogram.PointFunction.Cache
import PrivateHistogram.PointFunction.Expansion
import PrivateHistogram.PointFunction.Key
import PrivateHistogram.Room

/-!
Evaluating one half of a key: at a single bucket, or at all buckets of a plan.

Both walk down the tree, from the deepest ancestor that is kept in a cache. What is in the cache does
not change the outputs as long as it was reached with the same half.
-/

namespace PrivateHistogram.PointFunction

variable {V : Type}

/-- Refuses a half of another hierarchy. -/
def checkKey (F : PointFunction V) (k : KeyHalf V) : Except Error Unit :=
  if k.bitLength ≠ F.domain.bitLength.toNat then
    .error (.keyMismatch s!"key has {k.bitLength} levels, expected {F.domain.bitLength.toNat}")
  else if k.hierarchy ≠ F.domain.hierarchy.sizes then .error (.keyMismatch "hierarchy differs")
  else .ok ()

/-- The path of the ancestor at the given depth, of a node at depth `bits`. -/
def ancestor (bits : Nat) (path : UInt64) (depth : Nat) : UInt64 := path >>> UInt64.ofNat (bits - depth)

/-- The deepest ancestor that is kept, at most at the given depth, and its depth; or the root. -/
def deepestKept (k : KeyHalf V) (c : NodeCache) (bits : Nat) (path : UInt64) : (depth : Nat) → Nat × NodeState
  | 0 => (0, k.root)
  | depth + 1 =>
    match c.get? (UInt32.ofNat (depth + 1)) (ancestor bits path (depth + 1)) with
    | some s => (depth + 1, s)
    | none => deepestKept k c bits path depth

variable [Payload V]

/-- The node that is reached by a path, where the correction words are those of the levels on the way. -/
def descend (g : Generator V) : NodeState → List (CorrectionWord V × Bool) → NodeState
  | s, [] => s
  | s, (word, bit) :: rest => descend g (s.child g (g.extend s.seed) word bit).1 rest

/-- The node at depth `bits` that a path leads to. -/
def nodeAt (F : PointFunction V) (k : KeyHalf V) (bits : Nat) (p : UInt64) (c : NodeCache) : NodeState :=
  let (depth, s) := deepestKept k c bits p bits
  descend F.generator s (((k.corrections.take bits).zip (path bits p)).drop depth)

/-- The values of all nodes below one, from left to right, where the correction words are those of the
levels on the way. -/
def leaves (g : Generator V) : List (CorrectionWord V) → NodeState → List V
  | [], _ => []
  | [word], s =>
    let c := g.extend s.seed
    [(s.child g c word false).2, (s.child g c word true).2]
  | word :: rest, s =>
    let c := g.extend s.seed
    leaves g rest (s.child g c word false).1 ++ leaves g rest (s.child g c word true).1

/-- A party's output for a value it has found. -/
def Party.output (p : Party) (v : V) : V := if p = .second then -v else v

/-- A party's share of the function at a bucket with the given number of bits. -/
def evaluate (F : PointFunction V) (k : KeyHalf V) (bits : UInt32) (bucket : UInt64) (c : NodeCache) :
    Except Error V := do
  F.checkKey k
  let n := bits.toNat
  if n = 0 ∨ F.domain.bitLength < bits then
    throw (.invalidParameters s!"prefix length {n} outside 1..={F.domain.bitLength.toNat}")
  if Nat.pow 2 n ≤ bucket.toNat then throw (.outsideDomain bucket bits)
  match k.corrections[n - 1]? with
  | none => throw (.keyMismatch s!"key has {k.bitLength} levels, expected {F.domain.bitLength.toNat}")
  | some word =>
    let parent := F.nodeAt k (n - 1) (bucket >>> 1) c
    let value := (parent.child F.generator (F.generator.extend parent.seed) word (bucket.toNat.testBit 0)).2
    return k.party.output value

/-- The values below one parent of a plan, after the values found so far. The parent is kept, unless it is
the root. -/
def expandParent (F : PointFunction V) (k : KeyHalf V) (p : Plan) (found : Array V × NodeCache) (parent : UInt64) :
    Array V × NodeCache :=
  let (values, c) := found
  let s := F.nodeAt k p.parentBits.toNat parent c
  let words := (k.corrections.take p.targetBits.toNat).drop p.parentBits.toNat
  (values ++ (leaves F.generator words s).map k.party.output,
    if 0 < p.parentBits then c.insert p.parentBits parent s else c)

/-- Makes room for the values, of so many bytes each, of all buckets so many levels below so many parents. Their
number is a word shifted to the left, of which bits may be lost. -/
def makeRoom (parents : Nat) (depth : UInt32) (size : Nat) : Except Error Unit :=
  if 64 ≤ depth then .error (.shiftOverflow depth)
  else
    let values := parents * Nat.pow 2 depth.toNat % UInt64.size
    if Room.holds values size then .ok () else .error (.capacityOverflow values)

/-- A party's shares of the function at the buckets below the parents with the numbers `start` up to
`stop`, in order, and the cache afterwards. -/
def expandParents (F : PointFunction V) (k : KeyHalf V) (p : Plan) (start stop : Nat) (c : NodeCache) :
    Except Error (Array V × NodeCache) := do
  F.checkKey k
  if F.domain.bitLength < p.targetBits ∨ p.targetBits ≤ p.parentBits then
    throw (.invalidParameters s!"cannot expand from {p.parentBits.toNat} to {p.targetBits.toNat} bits")
  if stop < start ∨ p.parents.size < stop then
    throw (.invalidParameters s!"parent range {start}..{stop} exceeds {p.parents.size} parents")
  makeRoom (stop - start) p.subtreeBits (Payload.size V)
  return (p.parents.toList.take stop).drop start |>.foldl (F.expandParent k p) (#[], c)

/-- A party's shares of the function at all buckets of a plan, and the cache afterwards. -/
def expand (F : PointFunction V) (k : KeyHalf V) (p : Plan) (c : NodeCache) : Except Error (Array V × NodeCache) :=
  F.expandParents k p 0 p.parents.size c

end PrivateHistogram.PointFunction

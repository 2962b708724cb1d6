import PrivateHistogram.Json.Codec
import PrivateHistogram.PointFunction.Error

/-!
Hierarchies: the lengths of buckets, in bits, at which point functions are evaluated.

The last length is that of the points themselves. A hierarchy may come from a file, so it is a plain
list; a `Domain` is a hierarchy that has been found to be in order.
-/

namespace PrivateHistogram.PointFunction

/-- The bit lengths of the levels, in the order of the levels. -/
structure Hierarchy where
  sizes : List UInt32
deriving DecidableEq

namespace Hierarchy

def maxBits : UInt32 := 64

def bitLength (h : Hierarchy) : UInt32 := h.sizes.getLast?.getD 0

def levels (h : Hierarchy) : Nat := h.sizes.length

def levelBits (h : Hierarchy) (level : UInt64) : Except Error UInt32 :=
  match h.sizes[level.toNat]? with
  | some bits => .ok bits
  | none => .error (.invalidParameters s!"hierarchy level {level.toNat} out of range (have {h.levels})")

/-- There is a level, the first has at least one bit, the last at most 64, and each has more bits than
the one before. -/
structure Valid (h : Hierarchy) : Prop where
  nonempty : h.sizes ≠ []
  first_pos : h.sizes.head? ≠ some 0
  last_le : h.bitLength ≤ maxBits
  increasing : h.sizes.Pairwise (· < ·)

/-- A valid hierarchy, or what is wrong with it. -/
def check (h : Hierarchy) : Except Error (PLift h.Valid) :=
  if nonempty : h.sizes = [] then .error (.invalidParameters "empty hierarchy")
  else if first_pos : h.sizes.head? = some 0 then .error (.invalidParameters "hierarchy levels must lie in 1..=64")
  else if last_le : h.bitLength ≤ maxBits then
    if increasing : h.sizes.Pairwise (· < ·) then .ok ⟨nonempty, first_pos, last_le, increasing⟩
    else .error (.invalidParameters "hierarchy levels must be strictly increasing")
  else .error (.invalidParameters "hierarchy levels must lie in 1..=64")

instance : Codec Hierarchy where
  encode h := .record [("log_domain_sizes", Codec.encode h.sizes)]
  decode? j := do
    let [sizes] ← j.fields? ["log_domain_sizes"] | none
    some { sizes := ← Codec.field? sizes }

end Hierarchy

/-- A hierarchy that is in order. -/
structure Domain where
  hierarchy : Hierarchy
  valid : hierarchy.Valid
deriving DecidableEq

namespace Domain

def ofHierarchy (h : Hierarchy) : Except Error Domain := do
  let valid ← h.check
  return ⟨h, valid.down⟩

/-- The domain with a level for every length up to `bits`. Lengths beyond 65 are not even listed, since
65 is too many already. -/
def perBit (bits : UInt32) : Except Error Domain :=
  ofHierarchy ⟨(List.range' 1 (min bits.toNat 65)).map UInt32.ofNat⟩

def bitLength (d : Domain) : UInt32 := d.hierarchy.bitLength

/-- How a domain is shown. -/
def describe (d : Domain) : String :=
  let sizes := ", ".intercalate (d.hierarchy.sizes.map fun n => toString n.toNat)
  "Dpf \x7b params: DpfParameters \x7b log_domain_sizes: [" ++ sizes ++ "] \x7d \x7d"

end Domain

end PrivateHistogram.PointFunction

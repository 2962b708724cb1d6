import PrivateHistogram.Increasing
import PrivateHistogram.PointFunction.Hierarchy

/-!
Expansions: which buckets are looked at in one round.

A round goes down the hierarchy through one or more levels. At each of them it refines either all
buckets that the level before reached or a selection of them, and only the buckets of the last level
are put out. A plan lists the parents that are refined in the last step; its buckets are everything
below them.
-/

namespace PrivateHistogram.PointFunction

/-- A request to go through some levels, with the buckets to refine at each, none meaning all. -/
structure Expansion where
  levels : List UInt64
  /-- For each level, buckets of the level before it. -/
  selections : List (List UInt64)
  /-- The level at which the round before stopped. -/
  previousLevel : Option UInt64
deriving DecidableEq

namespace Expansion

instance : Codec Expansion where
  encode e :=
    .record [("levels", Codec.encode e.levels), ("prefixes", Codec.encode e.selections),
      ("previous_level", Codec.encode e.previousLevel)]
  decode? j := do
    let [levels, selections, previousLevel] ← j.fields? ["levels", "prefixes", "previous_level"] | none
    some { levels := ← Codec.field? levels, selections := ← Codec.field? selections,
           previousLevel := ← Codec.fieldD? none previousLevel }

end Expansion

/-- A request in its older form: selections for the levels from the first one on. -/
structure Selections where
  lists : List (List UInt64)
deriving DecidableEq

instance : Codec Selections where
  encode s := .record [("prefixes", Codec.encode s.lists)]
  decode? j := do
    let [lists] ← j.fields? ["prefixes"] | none
    some { lists := ← Codec.field? lists }

/-- The expansion of a fresh context that goes through one level for each selection. -/
def Expansion.ofSelections (h : Hierarchy) (s : Selections) : Except Error Expansion := do
  let _ ← h.check
  let count := s.lists.length
  if count = 0 ∨ h.levels < count then
    throw (.invalidParameters s!"expected between 1 and {h.levels} prefix levels, got {count}")
  return { levels := (List.range count).map UInt64.ofNat, selections := s.lists, previousLevel := none }

/-- An expansion whose buckets are everything below some parents. -/
structure Plan where
  level : UInt64
  parentBits : UInt32
  parents : Array UInt64
  targetBits : UInt32
deriving DecidableEq

namespace Plan

/-- The number of tree levels between a parent and its buckets. -/
def subtreeBits (p : Plan) : UInt32 := p.targetBits - p.parentBits

def size (p : Plan) : Nat := p.parents.size * Nat.pow 2 p.subtreeBits.toNat

def bucket (p : Plan) (i : Nat) : UInt64 :=
  let depth := p.subtreeBits.toNat
  (p.parents.getD (i >>> depth) 0 <<< UInt64.ofNat depth) ||| UInt64.ofNat (i % Nat.pow 2 depth)

def buckets (p : Plan) : Array UInt64 := Array.ofFn fun i : Fin p.size => p.bucket i

/-- The numbers, from the first up to the second, of the parents of the buckets with the numbers `start`
up to `stop`. -/
def parentsCovering (p : Plan) (start stop : Nat) : Nat × Nat :=
  if start < stop then (start >>> p.subtreeBits.toNat, (stop - 1) >>> p.subtreeBits.toNat + 1) else (0, 0)

end Plan

/-- The buckets that an expansion starts from, by number. -/
structure Frontier where
  /-- Their level, or none where nothing has been expanded yet. -/
  level : Option UInt64
  bits : UInt32
  size : Nat
  bucket : Nat → UInt64

namespace Frontier

/-- The whole domain, before anything is expanded. -/
def fresh : Frontier := ⟨none, 0, 1, fun _ => 0⟩

/-- Buckets that have been listed. -/
def ofList (level : UInt64) (bits : UInt32) (buckets : Array UInt64) : Frontier :=
  ⟨some level, bits, buckets.size, fun i => buckets.getD i 0⟩

/-- The buckets of a plan. -/
def ofPlan (p : Plan) : Frontier := ⟨some p.level, p.targetBits, p.size, p.bucket⟩

/-- Whether a bucket is found among the `count > 0` buckets from number `first` on, which is to be so if
they are in order: the upper half is looked at unless it starts with a larger bucket. -/
def search (f : Frontier) (wanted : UInt64) (first count : Nat) : Bool :=
  if count ≤ 1 then f.bucket first = wanted
  else
    let half := count / 2
    f.search wanted (if wanted < f.bucket (first + half) then first else first + half) (count - half)
termination_by count

def contains (f : Frontier) (wanted : UInt64) : Bool := f.size ≠ 0 && f.search wanted 0 f.size

/-- The buckets of a selection in increasing order, if all of them are there. -/
def select (f : Frontier) (selection : List UInt64) : Except Error (Array UInt64) :=
  if f.level = none then .error (.invalidParameters "prefixes given for the first level of a fresh context")
  else
    let chosen := increasing selection
    match chosen.find? fun bucket => !f.contains bucket with
    | some missing => .error (.notExpanded f.bits missing)
    | none => .ok chosen.toArray

end Frontier

namespace Plan

/-- A round puts out at most `2^24` buckets. -/
def maxBucketBits : UInt32 := 24

/-- Refuses to refine so many parents from one length to another if that gives too many buckets. -/
def checkSize (parents : Nat) (parentBits targetBits : UInt32) : Except Error Unit :=
  let depth := targetBits - parentBits
  if targetBits < parentBits then .error (.decreasingLevels parentBits targetBits)
  else if maxBucketBits < depth then .error (.expansionTooLarge parents depth)
  else if Nat.pow 2 maxBucketBits.toNat < parents * Nat.pow 2 depth.toNat then .error (.expansionTooLarge parents depth)
  else .ok ()

/-- Goes down from a frontier to a level. -/
def step (h : Hierarchy) (f : Frontier) (level : UInt64) (selection : List UInt64) : Except Error Plan := do
  let targetBits ← h.levelBits level
  if let some current := f.level then
    if level ≤ current then
      throw (.invalidParameters (s!"level {level.toNat} does not follow level " ++ showLevel f.level))
  if selection = [] then
    checkSize f.size f.bits targetBits
    return { level, parentBits := f.bits, parents := Array.ofFn fun i : Fin f.size => f.bucket i, targetBits }
  else
    let parents ← f.select selection
    checkSize parents.size f.bits targetBits
    return { level, parentBits := f.bits, parents, targetBits }

/-- Goes down from a frontier through several levels, the first of which is given apart. -/
def descend (h : Hierarchy) (f : Frontier) (first : UInt64 × List UInt64) (rest : List (UInt64 × List UInt64)) :
    Except Error Plan := do
  let p ← step h f first.1 first.2
  rest.foldlM (fun p next => step h (.ofPlan p) next.1 next.2) p

end Plan

/-- The steps of an expansion: each level with its selection, the first step apart. -/
def Expansion.steps (e : Expansion) : Except Error ((UInt64 × List UInt64) × List (UInt64 × List UInt64)) :=
  let mismatch : Error := .invalidParameters s!"{e.selections.length} prefix lists for {e.levels.length} levels"
  match e.levels, e.selections with
  | [], _ => .error (.invalidParameters "no levels to expand")
  | _ :: _, [] => .error mismatch
  | level :: levels, selection :: selections =>
    if levels.length = selections.length then .ok ((level, selection), levels.zip selections) else .error mismatch

/-- The plan of an expansion, given the level and the buckets at which the round before stopped. -/
def Expansion.plan (e : Expansion) (h : Hierarchy) (previous : Option (UInt64 × Array UInt64)) : Except Error Plan := do
  let (first, rest) ← e.steps
  let found := previous.map fun p => p.1
  if e.previousLevel ≠ found then throw (.contextMismatch e.previousLevel found)
  match previous with
  | none => Plan.descend h .fresh first rest
  | some (level, buckets) =>
    let bits ← h.levelBits level
    Plan.descend h (.ofList level bits buckets) first rest

end PrivateHistogram.PointFunction

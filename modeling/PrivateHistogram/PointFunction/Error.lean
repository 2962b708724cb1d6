/-!
What can be wrong with a point function, its keys and the way it is expanded.
-/

namespace PrivateHistogram.PointFunction

/-- Why keys cannot be made or evaluated. -/
inductive Error
  /-- A point or a bucket does not have so few bits. -/
  | outsideDomain (id : UInt64) (bits : UInt32)
  | invalidParameters (detail : String)
  /-- A bucket is to be refined that the level before did not reach. -/
  | notExpanded (bits : UInt32) (bucket : UInt64)
  | expansionTooLarge (parents : Nat) (subtreeBits : UInt32)
  /-- The expansion does not continue where the one before stopped. -/
  | contextMismatch (expected found : Option UInt64)
  | keyMismatch (detail : String)
  | invalidSegmentLength
  /-- A level has fewer bits than the one before it, in a hierarchy that nobody has checked. -/
  | decreasingLevels (before after : UInt32)
  /-- The buckets below a parent are not numbered by words. -/
  | shiftOverflow (subtreeBits : UInt32)
  /-- No list holds the values of so many buckets. -/
  | capacityOverflow (values : Nat)
deriving DecidableEq, Repr

/-- A level that may be missing, as it is shown in a message. -/
def showLevel : Option UInt64 → String
  | some level => s!"Some({level.toNat})"
  | none => "None"

def Error.message : Error → String
  | .outsideDomain id bits => s!"point {id.toNat} is outside the {bits.toNat}-bit domain"
  | .invalidParameters detail => "invalid DPF parameters: " ++ detail
  | .notExpanded bits bucket => s!"prefix {bucket.toNat} of length {bits.toNat} was not expanded at the previous level"
  | .expansionTooLarge parents subtreeBits =>
    s!"expanding {parents} prefixes by {subtreeBits.toNat} bits exceeds the expansion limit"
  | .contextMismatch expected found =>
    "expansion continues from level " ++ showLevel expected ++ " but the context is at " ++ showLevel found
  | .keyMismatch detail => "key does not match DPF parameters: " ++ detail
  | .invalidSegmentLength => "segment length must be positive"
  | .decreasingLevels before after => s!"a level of {after.toNat} bits follows a level of {before.toNat} bits"
  | .shiftOverflow subtreeBits => s!"shift overflow: buckets {subtreeBits.toNat} bits below a prefix"
  | .capacityOverflow values => s!"capacity overflow: {values} values"

instance : ToString Error := ⟨Error.message⟩

end PrivateHistogram.PointFunction

/-!
Lists of numbers in increasing order, without repetitions.
-/

namespace PrivateHistogram

/-- Each of some numbers once, in increasing order. -/
def increasing (numbers : List UInt64) : List UInt64 := (numbers.mergeSort fun a b => a ≤ b).eraseReps

end PrivateHistogram

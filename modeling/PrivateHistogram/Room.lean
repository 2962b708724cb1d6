/-!
Room in memory. The items of a list stand side by side, and no list takes more bytes than a signed word of 64
bits can count.
-/

namespace PrivateHistogram.Room

/-- The most bytes that a list takes. -/
def limit : Nat := 0x7fffffffffffffff

/-- Whether there can be a list of so many items of so many bytes each. -/
def holds (count size : Nat) : Bool := count * size ≤ limit

end PrivateHistogram.Room

import PrivateHistogram.SeedStream

/-!
A tape that sixteen bytes determine.
-/

namespace PrivateHistogram.RandomTape

/-- The stream of a seed as a tape. -/
def ofSeed (key : StreamKey) (seed : Seed) : RandomTape :=
  { byte := fun i => (key.hashBlock (StreamKey.blockAt seed (i / 16))).toBytes.getD (i % 16) 0, used := 0, fault := none }

end PrivateHistogram.RandomTape

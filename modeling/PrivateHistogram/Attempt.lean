/-!
Computations that may fail half-way.
-/

namespace PrivateHistogram

/-- A computation on a state that may fail. What it has done to the state by then stays done. -/
abbrev Attempt (σ ε : Type) := ExceptT ε (StateM σ)

end PrivateHistogram

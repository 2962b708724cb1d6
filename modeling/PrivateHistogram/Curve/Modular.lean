/-!
Powers modulo a number, by repeated squaring.
-/

namespace PrivateHistogram.Modular

/-- `base ^ exponent * carried` modulo `m`. -/
def powerTimes (m base exponent carried : Nat) : Nat :=
  if exponent = 0 then carried % m
  else powerTimes m (base * base % m) (exponent / 2) (if exponent % 2 = 1 then carried * base % m else carried)
termination_by exponent
decreasing_by omega

/-- `base ^ exponent` modulo `m`. -/
def power (m base exponent : Nat) : Nat := powerTimes m (base % m) exponent 1

end PrivateHistogram.Modular

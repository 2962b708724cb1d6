import PrivateHistogram.Json.Float

/-!
Privacy parameters: how much may be learned of one report, and how much one report can change.
-/

namespace PrivateHistogram

namespace Privacy

/-- Why parameters are refused. -/
inductive Error
  /-- An epsilon that is negative, infinite or no number. -/
  | invalidFloat
  | invalidParameter (detail : String)
deriving DecidableEq, Repr

def Error.message : Error → String
  | .invalidFloat =>
    "DP error: input value was not a valid privacy parameter. It should to be a non-negative, finite float."
  | .invalidParameter detail => "invalid parameter: " ++ detail

instance : ToString Error := ⟨Error.message⟩

/-- A privacy budget, which is finite and positive. -/
structure Budget where
  epsilon : Float

namespace Budget

def ofEpsilon (epsilon : Float) : Except Error Budget :=
  if !epsilon.isFinite || epsilon < 0.0 then .error .invalidFloat
  else if epsilon == 0.0 then .error (.invalidParameter "epsilon cannot be zero")
  else .ok ⟨epsilon⟩

instance : Codec Budget where
  encode b := .record [("epsilon", Codec.encode b.epsilon)]
  decode? j := do
    let [epsilon] ← j.fields? ["epsilon"] | none
    (ofEpsilon (← Codec.field? epsilon)).toOption

end Budget

end Privacy

structure PrivacyParams where
  /-- The privacy budget of one helper. Zero asks for no noise. -/
  epsilon : Float
  /-- The largest contribution of one report to the sum of a bucket. -/
  sensitivity : UInt64

namespace PrivacyParams

/-- No noise, and contributions of 16 bits. -/
def default : PrivacyParams := ⟨0.0, 0x10000⟩

/-- Whether two are the same as numbers; a budget that is no number is not the same as itself. -/
instance : BEq PrivacyParams := ⟨fun a b => a.epsilon == b.epsilon && a.sensitivity == b.sensitivity⟩

def isEnabled (p : PrivacyParams) : Bool := p.epsilon > 0.0

/-- Refuses a budget that is negative, infinite or no number, and noise for contributions of nothing. -/
def validate (p : PrivacyParams) : Except Privacy.Error Unit :=
  if !p.epsilon.isFinite || p.epsilon < 0.0 then .error .invalidFloat
  else if p.isEnabled && p.sensitivity == 0 then
    .error (.invalidParameter "l1_sensitivity must be positive when epsilon is set")
  else .ok ()

instance : Codec PrivacyParams where
  encode p := .record [("epsilon", Codec.encode p.epsilon), ("l1_sensitivity", Codec.encode p.sensitivity)]
  decode? j := do
    let [epsilon, sensitivity] ← j.fields? ["epsilon", "l1_sensitivity"] | none
    some { epsilon := ← Codec.field? epsilon, sensitivity := ← Codec.field? sensitivity }

end PrivacyParams

end PrivateHistogram

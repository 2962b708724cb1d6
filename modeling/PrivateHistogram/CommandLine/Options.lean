import PrivateHistogram.Aggregation.Params
import PrivateHistogram.CommandLine.Flags
import PrivateHistogram.Text.Float
import PrivateHistogram.Text.Number

/-!
What the command line is asked to do: which files it reads and writes, and how key halves are added up.
-/

namespace PrivateHistogram.CommandLine

/-! ### Values -/

def readPath? (s : String) : Option String := if s = "" then none else some s

def readSwitch? : String → Option Bool
  | "true" => some true
  | "false" => some false
  | _ => none

def readWord? (s : String) : Option UInt64 := (Text.readNat UInt64.size s.toList).toOption.map UInt64.ofNat

/-- Zero may have a minus sign. -/
def readBits? (s : String) : Option UInt32 :=
  match s.toList with
  | '-' :: digits => if digits ≠ [] ∧ digits.all (· = '0') then some 0 else none
  | s => (Text.readNat UInt32.size s).toOption.map UInt32.ofNat

def readReal? (s : String) : Option Float := Text.readFloat? s.toList

/-! ### Flags -/

def partialReportFlag : Flag :=
  ⟨"partial_report_uri", fun s => (readPath? s).isSome, "sealed key halves or an evaluation context, to read"⟩

def expandFlag : Flag := ⟨"expand_parameters_uri", fun s => (readPath? s).isSome, "the expansion, to read"⟩

def histogramFlag : Flag :=
  ⟨"partial_histogram_uri", fun s => (readPath? s).isSome, "the partial histogram, to write"⟩

def contextFlag : Flag :=
  ⟨"decrypted_report_uri", fun s => (readPath? s).isSome, "the evaluation context, to write"⟩

def keyBitsFlag : Flag := ⟨"key_bit_size", fun s => (readBits? s).isSome, "bits of a bucket identifier, 32 if left out"⟩

def privateKeysFlag : Flag := ⟨"private_key_params_uri", fun s => (readPath? s).isSome, "the helper's keys, to read"⟩

def directFlag : Flag :=
  ⟨"direct_combine", fun s => (readSwitch? s).isSome, "whether all buckets are added up at once, true if left out"⟩

def segmentFlag : Flag := ⟨"segment_length", fun s => (readWord? s).isSome, "buckets of a segment, 32768 if left out"⟩

def epsilonFlag : Flag := ⟨"epsilon", fun s => (readReal? s).isSome, "the privacy budget, 0 if left out"⟩

def sensitivityFlag : Flag :=
  ⟨"l1_sensitivity", fun s => (readWord? s).isSome, "how far one report changes a sum, 65536 if left out"⟩

def shardsFlag : Flag := ⟨"file_shards", fun s => (readWord? s).isSome, "files the histogram is split into, 1 if left out"⟩

def hierarchyFlag : Flag :=
  ⟨"sum_parameters_uri", fun s => (readPath? s).isSome, "the hierarchy that selections refer to, to read"⟩

def selectionsFlag : Flag :=
  ⟨"prefixes_uri", fun s => (readPath? s).isSome, "selections to read instead of an expansion"⟩

def flags : List Flag :=
  [partialReportFlag, expandFlag, histogramFlag, contextFlag, keyBitsFlag, privateKeysFlag, directFlag, segmentFlag,
    epsilonFlag, sensitivityFlag, shardsFlag, hierarchyFlag, selectionsFlag]

/-! ### Options -/

/-- What the command line is asked to do. -/
structure Options where
  /-- The file of the sealed key halves, or of the context that an earlier round has left behind. -/
  partialReport : String
  expand : Option String
  histogram : String
  /-- Where the context goes after the round. -/
  context : Option String
  keyBits : UInt32
  privateKeys : String
  combine : CombineParams
  shards : UInt64
  hierarchy : Option String
  selections : Option String

namespace Options

/-- The value of a flag that has to be given. -/
def required (g : Given) (f : Flag) : Except Refusal String :=
  match g.value? f.name with
  | some path => .ok path
  | none => .error (.flagMissing f.name)

/-- The value of a flag that may be left out. -/
def withDefault {α : Type} (g : Given) (f : Flag) (read? : String → Option α) (default : α) : α :=
  ((g.value? f.name).bind read?).getD default

def ofGiven (g : Given) : Except Refusal Options := do
  return { partialReport := ← required g partialReportFlag
           expand := g.value? expandFlag.name
           histogram := ← required g histogramFlag
           context := g.value? contextFlag.name
           keyBits := withDefault g keyBitsFlag readBits? 32
           privateKeys := ← required g privateKeysFlag
           combine :=
             { direct := withDefault g directFlag readSwitch? CombineParams.default.direct
               segmentLength := withDefault g segmentFlag readWord? CombineParams.default.segmentLength
               epsilon := withDefault g epsilonFlag readReal? CombineParams.default.epsilon
               sensitivity := withDefault g sensitivityFlag readWord? CombineParams.default.sensitivity }
           shards := withDefault g shardsFlag readWord? 1
           hierarchy := g.value? hierarchyFlag.name
           selections := g.value? selectionsFlag.name }

def ofArguments (arguments : List String) : Except Refusal Options := do
  ofGiven (← scan flags [] arguments)

end Options

/-- What there is to know about the flags. -/
def usage : String :=
  "Aggregates the key halves of one helper into a partial histogram.\n\n" ++
    String.join (flags.map fun f => "  --" ++ f.name ++ "=<value>  " ++ f.purpose ++ "\n")

end PrivateHistogram.CommandLine

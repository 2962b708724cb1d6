import PrivateHistogram.CommandLine.Options
import PrivateHistogram.PartialHistogram
import PrivateHistogram.Round
import PrivateHistogram.Suite.Standard

/-!
One round of aggregation as a command: it reads the keys of a helper, an expansion and what the round starts
from, and writes the histogram, and the context for a later round if it is asked to.

Files are reached through a record of two operations, so the same command runs on a disk and on a table of
contents. The context is written before the histogram is split; it stays when the split fails.
-/

namespace PrivateHistogram.CommandLine

structure Files (m : Type → Type) where
  /-- The content of a file, if it can be read. -/
  read? : String → m (Option Bytes)
  /-- Writes a file, and says whether it could. -/
  write : String → Bytes → m Bool

/-- Why the command stops. -/
inductive Problem
  | refusal (cause : Refusal)
  | unreadable (what path : String)
  | malformed (what path : String)
  | unwritable (what path : String)
  | expansionMissing
  | invalidSelections (cause : PointFunction.Error)
  | invalidKeyBits (cause : PointFunction.Error)
  | failedRound (cause : Failure)
  | invalidShards (cause : Aggregation.Error)

namespace Problem

def message : Problem → String
  | .refusal .help => usage
  | .refusal cause => cause.message ++ "\n\n" ++ usage
  | .unreadable what path => "could not open " ++ what ++ " " ++ path
  | .malformed what path => "could not parse " ++ what ++ " " ++ path
  | .unwritable what path => "could not write " ++ what ++ " " ++ path
  | .expansionMissing =>
    "either --" ++ expandFlag.name ++ " or both --" ++ hierarchyFlag.name ++ " and --" ++ selectionsFlag.name ++
      " are required"
  | .invalidSelections cause => "could not convert selections: " ++ cause.message
  | .invalidKeyBits cause => "invalid --" ++ keyBitsFlag.name ++ ": " ++ cause.message
  | .failedRound cause => "failed to aggregate partial reports: " ++ cause.message
  | .invalidShards cause => "invalid --" ++ shardsFlag.name ++ ": " ++ cause.message

/-- A call for help is no failure. A command line that is refused has a code of its own, and so has a number of
shards that no list holds. -/
def exitCode : Problem → UInt32
  | .refusal .help => 0
  | .refusal _ => 2
  | .invalidShards (.capacityOverflow _) => 101
  | _ => 1

end Problem

/-- A command on files. What it has written by the time it stops stays. -/
abbrev Command (m : Type → Type) := ExceptT Problem m

variable {m : Type → Type} [Monad m]

/-- Stops where a computation fails. -/
def orStop {ε α : Type} (problem : ε → Problem) (x : Except ε α) : Command m α :=
  ExceptT.mk (pure (x.mapError problem))

def load (files : Files m) (α : Type) [Codec α] (what path : String) : Command m α := do
  let some content ← (files.read? path : m (Option Bytes)) | throw (.unreadable what path)
  let some a := Codec.ofBytes? content | throw (.malformed what path)
  return a

def store {α : Type} [Codec α] (files : Files m) (what path : String) (a : α) : Command m Unit := do
  if !(← (files.write path (Codec.toBytes a) : m Bool)) then throw (.unwritable what path)

/-- The expansion that the options name, or that selections amount to. -/
def loadExpansion (files : Files m) (o : Options) : Command m PointFunction.Expansion := do
  match o.expand, o.hierarchy, o.selections with
  | some path, _, _ => load files PointFunction.Expansion "expand parameters" path
  | none, some hierarchy, some selections => do
    let h ← load files PointFunction.Hierarchy "sum parameters" hierarchy
    let s ← load files PointFunction.Selections "prefixes" selections
    orStop .invalidSelections (PointFunction.Expansion.ofSelections h s)
  | _, _, _ => throw .expansionMissing

/-- A number in decimal with at least five digits. -/
def fiveDigits (n : Nat) : String :=
  let digits := toString n
  String.ofList (List.replicate (5 - digits.length) '0') ++ digits

/-- The file of one shard of several. A single shard takes the name as it is. -/
def shardPath (path : String) (index count : Nat) : String :=
  if count = 1 then path else path ++ "-" ++ fiveDigits index ++ "-of-" ++ fiveDigits count

/-- Carries the options out, with randomness from a tape. -/
def perform (files : Files m) (tape : RandomTape) (o : Options) : Command m Unit := do
  let keys ← load files KeyMaterial "private keys" o.privateKeys
  let expand ← loadExpansion files o
  let domain ← orStop .invalidKeyBits (PointFunction.Domain.perBit o.keyBits)
  let input ← load files Round.Input "partial reports" o.partialReport
  let params : RoundParams := { expand, combine := o.combine, ignorePrivacy := false }
  let (result, _) := Round.run .standard domain.hierarchy keys params input tape
  let (histogram, context) ← orStop .failedRound result
  if let some path := o.context then store files "evaluation context" path context
  let shards ← orStop .invalidShards (histogram.shards o.shards)
  shards.zipIdx.forM fun (shard, index) =>
    store files "partial histogram" (shardPath o.histogram index shards.length) shard

def run (files : Files m) (tape : RandomTape) (arguments : List String) : Command m Unit := do
  perform files tape (← orStop .refusal (Options.ofArguments arguments))

end PrivateHistogram.CommandLine

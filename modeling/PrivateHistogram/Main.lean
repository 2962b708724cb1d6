import PrivateHistogram.CommandLine
import PrivateHistogram.RandomTape.Seeded

/-!
The command line: it runs one round of aggregation on the files of the disk.
-/

namespace PrivateHistogram.CommandLine

def diskFiles : Files IO where
  read? path := do
    try
      let content ← IO.FS.readBinFile path
      return some content.toList
    catch _ => return none
  write path content := do
    try
      IO.FS.writeBinFile path ⟨content.toArray⟩
      return true
    catch _ => return false

/-- A tape that nobody can foretell. -/
def freshTape : IO RandomTape := do
  let bytes ← IO.getRandomBytes 16
  return .ofSeed (StreamKey.derive (Bytes.ofText "aggregate partial report") []) (Bytes.fit 16 bytes.toList)

end PrivateHistogram.CommandLine

open PrivateHistogram in
def main (arguments : List String) : IO UInt32 := do
  match ← (CommandLine.run CommandLine.diskFiles (← CommandLine.freshTape) arguments).run with
  | .ok () => return 0
  | .error problem =>
    if problem.exitCode = 0 then IO.println problem.message else IO.eprintln problem.message
    return problem.exitCode

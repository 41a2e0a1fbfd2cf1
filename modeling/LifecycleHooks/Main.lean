import LifecycleHooks.CommandLine.Run

/-!
# The command

The command reads all sources that its arguments name, runs the analysis on them
and prints the outcome.
-/

namespace LifecycleHooks.CommandLine

/-- The number of steps that a search through types may take. -/
def stepLimit : Nat := 0x1000000000000000

/-- The failure that an error of the file system stands for. -/
def ReadFailure.ofError : IO.Error → ReadFailure
  | .noFileOrDirectory .. => .notFound
  | .permissionDenied .. => .permissionDenied
  | .inappropriateType _ _ _ => .isDirectory
  | error => .other error.toString

/-- Read the file that a path names. -/
def readSource (path : FilePath) : IO (Except ReadFailure (List UInt8)) := do
  try
    let bytes ← IO.FS.readBinFile path.toString
    return .ok bytes.data.toList
  catch error =>
    return .error (.ofError error)

/-- Read all sources that the words of a command line name. -/
def readSources (words : List String) : IO (List (FilePath × Except ReadFailure (List UInt8))) :=
  match Request.ofWords words with
  | .run arguments =>
      arguments.sources.mapM fun source => do
        let path := FilePath.ofString source
        return (path, ← readSource path)
  | _ => return []

end LifecycleHooks.CommandLine

open LifecycleHooks CommandLine in
/-- Run the command on the words of its command line. -/
def main (words : List String) : IO UInt32 := do
  let sources ← readSources words
  let read (path : FilePath) : Except ReadFailure (List UInt8) :=
    (sources.lookup path).getD (.error .notFound)
  match run read stepLimit words with
  | .ok output => do
      IO.print output.stdout
      IO.eprint output.stderr
      return output.exitCode.toUInt32
  | .error fault => do
      IO.eprintln fault.message
      return 1

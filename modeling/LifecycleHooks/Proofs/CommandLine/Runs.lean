import LifecycleHooks.CommandLine.Run
import LifecycleHooks.Proofs.Lifting.Serving
import LifecycleHooks.Proofs.Program.ScheduleReports

/-!
# Runs over several sources

A run reports on its sources one after the other.  A file that cannot be read gets one
diagnostic of its own, and every other file what its analysis reports, the same as in a run on
that source alone.  One thing stops a run, and with it the reports on all sources: a file that
can be read but is no text, or a path that cannot be one.
-/

namespace LifecycleHooks

open Attempt

namespace ProgramAnalysis

end ProgramAnalysis

namespace CommandLine

/-- Files are read by their paths. -/
abbrev Reader := FilePath → Except ReadFailure (List UInt8)

/-- A source can be a path, and what it names is a text if it can be read at all. -/
def IsLegible (read : Reader) (written : String) : Prop :=
  '\x00' ∉ written.toList ∧ ∀ bytes, read (.ofString written) = .ok bytes → ∃ text, Text.decodeUtf8 bytes = .ok text

/-- The text that is analysed for the text of a file. -/
def analyzedText (text : String) : String := String.ofList (Text.universalNewlines text.toList)

/-- What is printed for reports. -/
def printed (options : Options) (reports : List SourceReport) : Output :=
  if options.json then jsonOutput options reports else textOutput options reports

/-- A report on a source, and on nothing else. -/
structure Tells (read : Reader) (fuel : Nat) (written : String) (report : SourceReport) : Prop where
  source : report.source = (FilePath.ofString written).toString
  /-- A file that cannot be read has one diagnostic of the driver, which has no code. -/
  unreadable : ∀ failure, read (.ofString written) = .error failure → report.diagnostics =
    [{ phase := .driver, code := none, message := s!"cannot read source: {failure.reason}"
       span := { file := some (FilePath.ofString written).toString } }]
  /-- Any other file has the diagnostics of its analysis. -/
  analyzed : ∀ bytes, read (.ofString written) = .ok bytes → ∃ text analysis, Text.decodeUtf8 bytes = .ok text ∧
    analyze (some (FilePath.ofString written).toString) fuel .standard (analyzedText text) = .ok analysis ∧
    report.diagnostics = analysis.diagnostics
  /-- A run on the source alone prints this report. -/
  alone : ∀ words options, Request.ofWords words = .run ⟨[written], options⟩ →
    run read fuel words = .ok (printed options [report])

section Sources

variable {read : Reader} {fuel : Nat} {written : String} {report : SourceReport}

end Sources

section Output

variable {options : Options} {reports : List SourceReport}

end Output

section Cases

end Cases
end CommandLine
end LifecycleHooks

import LifecycleHooks.CommandLine.Arguments
import LifecycleHooks.CommandLine.Files
import LifecycleHooks.Report
import LifecycleHooks.Text.Json

/-!
# Runs of the command

A run analyses its sources one after the other, each by itself.  It prints
diagnostics to the error output and the reports that were asked for to the
standard output, or everything at the end as one JSON object.  It exits with one
when anything was reported, and with two when it was not used as it should be.
-/

namespace LifecycleHooks.CommandLine

/-- What a run prints and how it exits. -/
structure Output where
  exitCode : Nat := 0
  stdout : String := ""
  stderr : String := ""
deriving DecidableEq, Repr

/-- The report on one source. -/
structure SourceReport where
  source : String
  diagnostics : List Diagnostic
  tableRows : List TableRow
  schedule : ScheduleReport
deriving Repr

namespace SourceReport

/-- The report on a source that cannot be read. -/
def ofFailure (source : String) (failure : ReadFailure) : SourceReport :=
  { source := source
    diagnostics :=
      [{ phase := .driver, code := none,
         message := s!"cannot read source: {failure.reason}",
         span := { file := some source } }]
    tableRows := []
    schedule := [] }

/-- The report on the text of a source. -/
def ofText (fuel : Nat) (source text : String) : Except Fault SourceReport := do
  let analysis ← analyze (some source) fuel .standard text
  return { source := source
           diagnostics := analysis.diagnostics
           tableRows := ← analysis.tableRows
           schedule := analysis.scheduleReport }

/-- The report on the bytes of a source. -/
def ofBytes (fuel : Nat) (source : String) (bytes : List UInt8) :
    Except Fault SourceReport :=
  match Text.decodeUtf8 bytes with
  | .error error => .error (.undecodable error)
  | .ok text => ofText fuel source (String.ofList (Text.universalNewlines text.toList))

/-- The report on what a path names.  A path with a null character names
nothing. -/
def ofPath (read : FilePath → Except ReadFailure (List UInt8)) (fuel : Nat)
    (written : String) : Except Fault SourceReport :=
  let path := FilePath.ofString written
  if '\x00' ∈ written.toList then
    .error .nullInPath
  else
    match read path with
    | .error failure => .ok (ofFailure path.toString failure)
    | .ok bytes => ofBytes fuel path.toString bytes

end SourceReport

/-- The exit code of a run over the given sources. -/
def exitCode (reports : List SourceReport) : Nat :=
  if reports.all (·.diagnostics.isEmpty) then 0 else 1

/-! ## Text -/

/-- The file that a diagnostic is about: the one it names, or else the source. -/
def fileOf (source : String) (diagnostic : Diagnostic) : String :=
  (nonemptyFile diagnostic.span.file).getD source

/-- The lines that a diagnostic is printed as. -/
def diagnosticLines (source : String) (diagnostic : Diagnostic) : List String :=
  let file := fileOf source diagnostic
  let place := if diagnostic.span.isKnown then s!"{file}:{diagnostic.span.render}" else file
  let code := match diagnostic.code with
    | some code => s!" [{code.text}]"
    | none => ""
  s!"{place}: {Diagnostic.severity}: {diagnostic.message}{code}" ::
    diagnostic.notes.map fun note => s!"  note: {note}"

/-- The line that a row of the operation table is printed as. -/
def tableLine (row : TableRow) : String :=
  let cells := row.2.map fun (hook, origin) => s!"{hook}={origin}"
  row.1 ++ ": " ++ "  ".intercalate cells

/-- Calls with commas between them, or a dash for none. -/
def callsText (calls : List String) : String :=
  if calls.isEmpty then "-" else commaList calls

/-- The line that an entry of a schedule is printed as. -/
def entryLine : ScheduleEntry → String
  | .edge id kind _ _ calls => s!"  edge {id} ({kind.word}): {callsText calls}"
  | .handoff callee index strategy calls =>
      s!"  {callee} arg {index} ({strategy.word}): {callsText calls}"

/-- The lines that a section of a schedule is printed as. -/
def sectionLines (entries : String × List ScheduleEntry) : List String :=
  (entries.1 ++ ":") :: entries.2.map entryLine

/-- Lines, each ended by a line feed. -/
def unlines (lines : List String) : String :=
  String.join (lines.map (· ++ "\n"))

/-- The lines of a report on the standard output. -/
def reportLines (options : Options) (report : SourceReport) : List String :=
  (if options.dumpTable then report.tableRows.map tableLine else []) ++
    (if options.dumpSchedule then report.schedule.flatMap sectionLines else [])

/-- What a run prints as text. -/
def textOutput (options : Options) (reports : List SourceReport) : Output :=
  { exitCode := exitCode reports
    stdout := unlines (reports.flatMap (reportLines options))
    stderr := unlines (reports.flatMap fun report =>
      report.diagnostics.flatMap (diagnosticLines report.source)) }

/-! ## JSON -/

open Text (Json)

/-- A diagnostic as JSON.  One that names no file is about the source. -/
def diagnosticJson (source : String) (diagnostic : Diagnostic) : Json :=
  .object
    [("phase", .string diagnostic.phase.text),
      ("code", .ofOption (fun code => .string (Code.text code)) diagnostic.code),
      ("message", .string diagnostic.message),
      ("severity", .string Diagnostic.severity),
      ("file", .string (diagnostic.span.file.getD source)),
      ("line", .ofOption .number diagnostic.span.line),
      ("column", .ofOption .number diagnostic.span.column),
      ("notes", .strings diagnostic.notes)]

/-- The operation table as JSON. -/
def tableJson (rows : List TableRow) : Json :=
  .object (rows.map fun (name, cells) =>
    (name, .object (cells.map fun (hook, origin) => (hook, .string origin))))

/-- An entry of a schedule as JSON. -/
def entryJson : ScheduleEntry → Json
  | .edge id kind line destroyed calls =>
      .object
        [("edge", .number id), ("kind", .string kind.word), ("line", .ofOption .number line),
          ("destroy", .strings destroyed), ("calls", .strings calls)]
  | .handoff callee index strategy calls =>
      .object
        [("callee", .string callee), ("arg", .number index),
          ("strategy", .string strategy.word), ("calls", .strings calls)]

/-- A schedule as JSON. -/
def scheduleJson (schedule : ScheduleReport) : Json :=
  .object (schedule.map fun (name, entries) => (name, .array (entries.map entryJson)))

/-- A value for each source as JSON.  A source that is named twice counts once. -/
def perSource (reports : List SourceReport) (value : SourceReport → Json) : Json :=
  .object (reports.foldl (fun members report => putNamed report.source (value report) members) [])

/-- What a run prints as JSON. -/
def jsonOutput (options : Options) (reports : List SourceReport) : Output :=
  let diagnostics := reports.flatMap fun report =>
    report.diagnostics.map (diagnosticJson report.source)
  let members :=
    [("diagnostics", Json.array diagnostics)] ++
      (if options.dumpTable then
        [("operation_table", perSource reports fun report => tableJson report.tableRows)]
      else []) ++
      (if options.dumpSchedule then
        [("schedule", perSource reports fun report => scheduleJson report.schedule)]
      else []) ++
      [("exit_code", .number (exitCode reports))]
  { exitCode := exitCode reports, stdout := (Json.object members).text ++ "\n" }

/-! ## Runs -/

/-- What the command prints for the given words.  Files are read with the given
reader, and types are searched for at most `fuel` steps. -/
def run (read : FilePath → Except ReadFailure (List UInt8)) (fuel : Nat)
    (words : List String) : Except Fault Output :=
  match Request.ofWords words with
  | .help => .ok { stdout := helpText }
  | .wrong error =>
      .ok { exitCode := 2, stderr := usage ++ s!"liftc: error: {error.message}\n" }
  | .run arguments => do
      let reports ← arguments.sources.mapM (SourceReport.ofPath read fuel)
      return if arguments.options.json then
        jsonOutput arguments.options reports
      else
        textOutput arguments.options reports

end LifecycleHooks.CommandLine

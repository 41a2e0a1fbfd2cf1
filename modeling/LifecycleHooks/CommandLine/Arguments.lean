import LifecycleHooks.Text.DecimalDigit
import LifecycleHooks.Text.Quoted

/-!
# Command-line arguments

The command takes one or more source files and flags.  A flag may be cut short as
long as it stays unambiguous, and everything behind `--` is a source.  The sources
have to stand together: only the first group of them counts, and later ones are
not recognized.
-/

namespace LifecycleHooks.CommandLine

/-- The flags of the command. -/
inductive Flag where
  | help
  | json
  | dumpTable
  | dumpSchedule
deriving DecidableEq, Repr

namespace Flag

/-- The long spellings of all flags. -/
def spellings : List (String × Flag) :=
  [("--help", .help), ("--json", .json), ("--dump-table", .dumpTable),
    ("--dump-schedule", .dumpSchedule)]

/-- The name of a flag in an error message. -/
def title : Flag → String
  | .help => "-h/--help"
  | .json => "--json"
  | .dumpTable => "--dump-table"
  | .dumpSchedule => "--dump-schedule"

end Flag

/-- What a run is asked to print. -/
structure Options where
  json : Bool := false
  dumpTable : Bool := false
  dumpSchedule : Bool := false
deriving DecidableEq, Repr

/-- The arguments of a run. -/
structure Arguments where
  sources : List String
  options : Options
deriving DecidableEq, Repr

/-- What is wrong with arguments. -/
inductive UsageError where
  | ambiguous (written : String) (candidates : List String)
  | ignoredArgument (flag : Flag) (argument : String)
  | missingSource
  | unrecognized (arguments : List String)
deriving DecidableEq, Repr

/-- The message of a usage error. -/
def UsageError.message : UsageError → String
  | .ambiguous written candidates =>
      s!"ambiguous option: {written} could match " ++ ", ".intercalate candidates
  | .ignoredArgument flag argument =>
      s!"argument {flag.title}: ignored explicit argument {Text.quoted argument}"
  | .missingSource => "the following arguments are required: source"
  | .unrecognized arguments => "unrecognized arguments: " ++ " ".intercalate arguments

/-- What arguments ask for. -/
inductive Request where
  | help
  | wrong (error : UsageError)
  | run (arguments : Arguments)
deriving DecidableEq, Repr

/-- What a word of the command line is.  A flag may have an argument behind an
equals sign, and the short flag for help further letters right behind it. -/
inductive Word where
  | plain (text : String)
  | separator
  | flag (flag : Flag) (argument : Option String)
  | shortHelp (letters : List Char)
  | unknown (text : String)
deriving DecidableEq, Repr

namespace Word

/-- Whether characters write a number without a sign: digits alone, or a point
with digits behind it. -/
def isNumeral (characters : List Char) : Bool :=
  match characters.dropWhile Text.isDecimalDigit with
  | [] => characters ≠ []
  | first :: fraction => first = '.' && fraction ≠ [] && fraction.all Text.isDecimalDigit

/-- Characters without the line feed that they end with. -/
def dropFinalLineFeed (characters : List Char) : List Char :=
  if characters.getLast? = some '\n' then characters.dropLast else characters

/-- Whether a word writes a negative number.  A line feed at its end does not
count. -/
def isNegativeNumber : List Char → Bool
  | '-' :: digits => isNumeral (dropFinalLineFeed digits)
  | _ => false

/-- A word that is no flag in spite of its dash: it is plain if it is a number or
holds a blank. -/
def other (written : String) : Word :=
  if isNegativeNumber written.toList || ' ' ∈ written.toList then
    .plain written
  else
    .unknown written

/-- The flags that a word with two dashes may be short for. -/
def candidates (stem : List Char) : List (String × Flag) :=
  Flag.spellings.filter fun (spelling, _) => stem.isPrefixOf spelling.toList

/-- Cut a word at its first equals sign. -/
def cutAtEquals (characters : List Char) : List Char × Option String :=
  match characters.dropWhile (· ≠ '=') with
  | [] => (characters, none)
  | _ :: argument => (characters.takeWhile (· ≠ '='), some (String.ofList argument))

/-- What a word that starts with two dashes is.  No spelling of a flag starts
another one, so a flag that is written out is never ambiguous. -/
def ofLong (written : String) : Except UsageError Word :=
  let (stem, argument) := cutAtEquals written.toList
  match candidates stem with
  | [] => .ok (other written)
  | [(_, meant)] => .ok (.flag meant argument)
  | several => .error (.ambiguous written (several.map Prod.fst))

/-- What a word that starts with a dash is.  An equals sign right behind the short
flag for help does not count among its letters. -/
def ofDashed (written : String) : Except UsageError Word :=
  match written.toList with
  | '-' :: '-' :: _ => ofLong written
  | ['-', 'h'] => .ok (.flag .help none)
  | '-' :: 'h' :: '=' :: letters => .ok (.shortHelp letters)
  | '-' :: 'h' :: letters => .ok (.shortHelp letters)
  | _ => .ok (other written)

/-- What a word is, if it stands in front of any separator. -/
def of (written : String) : Except UsageError Word :=
  match written.toList with
  | '-' :: _ :: _ => ofDashed written
  | _ => .ok (.plain written)

/-- What the words of a command line are.  Everything behind a separator is
plain. -/
def ofAll : List String → Except UsageError (List Word)
  | [] => .ok []
  | written :: rest =>
      if written = "--" then
        .ok (.separator :: rest.map .plain)
      else
        match of written, ofAll rest with
        | .error error, _ => .error error
        | .ok _, .error error => .error error
        | .ok word, .ok words => .ok (word :: words)

/-- The text of a word between flags. -/
def text : Word → String
  | .plain written => written
  | .separator => "--"
  | .flag known _ => known.title
  | .shortHelp _ => Flag.help.title
  | .unknown written => written

/-- Whether a word is plain. -/
def isPlain : Word → Bool
  | .plain _ => true
  | _ => false

end Word

/-- The arguments while they are taken in: the words since the last flag, the
sources once they are found, and what is not recognized. -/
structure Intake where
  pending : List Word := []
  sources : Option (List String) := none
  options : Options := {}
  unrecognized : List String := []
deriving DecidableEq, Repr

namespace Intake

/-- End a group of words between flags.  The first group with a plain word holds
the sources, with its first separator left out. -/
def endGroup (intake : Intake) : Intake :=
  let texts := intake.pending.map Word.text
  match intake.sources with
  | none =>
      if intake.pending.any Word.isPlain then
        { intake with sources := some (texts.erase "--"), pending := [] }
      else
        { intake with unrecognized := intake.unrecognized ++ texts, pending := [] }
  | some _ => { intake with unrecognized := intake.unrecognized ++ texts, pending := [] }

/-- What the short flag for help asks for with letters right behind it.  Each
letter has to be that of a short flag, of which there is no other. -/
def readLetters : List Char → Request
  | ['h'] => .help
  | 'h' :: letters => readLetters letters
  | letters => .wrong (.ignoredArgument .help (String.ofList letters))

/-- Set the option of a flag. -/
def setOption (intake : Intake) (flag : Flag) : Intake :=
  match flag with
  | .help => intake
  | .json => { intake with options := { intake.options with json := true } }
  | .dumpTable => { intake with options := { intake.options with dumpTable := true } }
  | .dumpSchedule => { intake with options := { intake.options with dumpSchedule := true } }

/-- Take in one word.  A flag for help, or one with an argument, ends the intake. -/
def take (intake : Intake) : Word → Except Request Intake
  | .plain written => .ok { intake with pending := intake.pending ++ [.plain written] }
  | .separator => .ok { intake with pending := intake.pending ++ [.separator] }
  | .unknown written =>
      let ended := intake.endGroup
      .ok { ended with unrecognized := ended.unrecognized ++ [written] }
  | .shortHelp letters => .error (readLetters letters)
  | .flag flag (some argument) => .error (.wrong (.ignoredArgument flag argument))
  | .flag .help none => .error .help
  | .flag flag none => .ok (intake.endGroup.setOption flag)

/-- What the arguments ask for once all are taken in. -/
def finish (intake : Intake) : Request :=
  let ended := intake.endGroup
  match ended.sources with
  | none => .wrong .missingSource
  | some sources =>
      if ended.unrecognized.isEmpty then
        .run ⟨sources, ended.options⟩
      else
        .wrong (.unrecognized ended.unrecognized)

end Intake

/-- What the words of a command line ask for. -/
def Request.ofWords (written : List String) : Request :=
  match Word.ofAll written with
  | .error error => .wrong error
  | .ok words =>
      match words.foldlM Intake.take {} with
      | .error request => request
      | .ok intake => intake.finish

/-- How the command is used, in brief. -/
def usage : String :=
  "usage: liftc [-h] [--json] [--dump-table] [--dump-schedule]\n" ++
    "             source [source ...]\n"

/-- How the command is used. -/
def helpText : String :=
  usage ++
    "\nlifecycle hook binding and lifting analysis\n" ++
    "\npositional arguments:\n" ++
    "  source           Path(s) to fixture source file(s)\n" ++
    "\noptions:\n" ++
    "  -h, --help       show this help message and exit\n" ++
    "  --json           Emit diagnostics as JSON to stdout\n" ++
    "  --dump-table     Print the effective operation table of every declared type\n" ++
    "  --dump-schedule  Print scope-exit destroy schedules and spawn handoffs\n"

end LifecycleHooks.CommandLine

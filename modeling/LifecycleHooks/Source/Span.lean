/-!
# Source positions and spans

A position is a line and a column of a source text, both counted from one.  A
span is what a diagnostic or an annotation knows about its place: the file and
the two ends are each optional, and the empty span stands for an unknown place.
-/

namespace LifecycleHooks

/-- A place in a source text, counted from line one, column one. -/
structure Position where
  line : Nat
  column : Nat
deriving DecidableEq, Repr, Inhabited

namespace Position

/-- The place of the first character of a text. -/
def start : Position := ⟨1, 1⟩

/-- The place after a character: only a line feed starts a new line. -/
def advance (place : Position) (character : Char) : Position :=
  if character = '\n' then ⟨place.line + 1, 1⟩ else ⟨place.line, place.column + 1⟩

end Position

/-- What is known about the place of a piece of source text. -/
structure Span where
  file : Option String := none
  line : Option Int := none
  column : Option Int := none
  endLine : Option Int := none
  endColumn : Option Int := none
deriving DecidableEq, Repr, Inhabited

namespace Span

/-- A span is known when it has a line. -/
def isKnown (span : Span) : Bool :=
  span.line.isSome

/-- The line and the column, with a question mark for each that is unknown. -/
def render (span : Span) : String :=
  let part : Option Int → String
    | none => "?"
    | some number => toString number
  part span.line ++ ":" ++ part span.column

/-- The same span, in the given file when it names none itself. -/
def fillFile (span : Span) (file : Option String) : Span :=
  match span.file with
  | none => { span with file := file }
  | some _ => span

@[simp]
theorem fillFile_none (span : Span) : span.fillFile none = span := by
  unfold fillFile
  split
  · next absent => cases span; simp_all
  · rfl

end Span

/-- A file name, unless it is empty. -/
def nonemptyFile (file : Option String) : Option String :=
  file.filter (· ≠ "")

/-- What a span can be made from: nothing, another span, or the marks that some
other object carries. -/
inductive Location where
  | absent
  | span (span : Span)
  | marks (marks : Span)
deriving DecidableEq, Repr

namespace Location

/-- The span of a location within a file.  A span keeps the file that it names;
marks take the given file unless its name is empty. -/
def toSpan (file : Option String) : Location → Span
  | .absent => { file := file }
  | .span known => known.fillFile file
  | .marks carried => { carried with file := (nonemptyFile file).or carried.file }

end Location

/-- The span that starts at a position of a file. -/
def Position.toSpan (file : Option String) (place : Position) : Span :=
  Location.toSpan file (.marks { line := some place.line, column := some place.column })

theorem Position.toSpan_isKnown (file : Option String) (place : Position) :
    (place.toSpan file).isKnown = true := rfl

end LifecycleHooks

import LifecycleHooks.Fault
import LifecycleHooks.Source.Diagnostic
import LifecycleHooks.Surface.Parser
import LifecycleHooks.Text.LineBreak

/-!
# Reading source texts

`parse` reads a source text as a program or reports a single syntax error: the
first character that starts no token, or the first token that cannot follow what
was read, whichever comes first.  The end of the text counts as a token that
stands where the last token starts.  Only when the whole text is well formed are
the operands of `spawn` checked.
-/

namespace LifecycleHooks.Surface

/-- Why a text is no program. -/
inductive SyntaxError where
  | strayCharacter (character : Char) (place : Position)
  | unexpectedToken (token : Token)
  | unexpectedEnd (place : Position)
  | spawnWithoutCall (place : Position)
deriving DecidableEq, Repr

namespace SyntaxError

/-- The place that a syntax error is reported at. -/
def place : SyntaxError → Position
  | .strayCharacter _ place => place
  | .unexpectedToken token => token.place
  | .unexpectedEnd place => place
  | .spawnWithoutCall place => place

/-- The message for a token, named by its class and its text. -/
def unexpected (terminal text : String) (place : Position) : String :=
  s!"Unexpected token Token({Text.quoted terminal}, {Text.quoted text}) " ++
    s!"at line {place.line}, column {place.column}."

/-- The message of a syntax error, cut at its first line break. -/
def message : SyntaxError → String
  | .strayCharacter character place =>
      Text.firstLine (s!"No terminal matches '{character}' in the current parser context, " ++
        s!"at line {place.line} col {place.column}")
  | .unexpectedToken token => unexpected token.lexeme.terminal token.lexeme.text token.place
  | .unexpectedEnd place => unexpected "$END" "" place
  | .spawnWithoutCall _ => "spawn expects a call expression"

/-- The span of a syntax error within a file.  An empty file name is kept for
errors of form and dropped for a stray operand. -/
def span (file : Option String) (error : SyntaxError) : Span :=
  match error with
  | .spawnWithoutCall place => place.toSpan file
  | _ => { file := file, line := some error.place.line, column := some error.place.column }

/-- The diagnostic that reports a syntax error. -/
def diagnostic (file : Option String) (error : SyntaxError) : Diagnostic :=
  { phase := .parser
    code := some .syntaxError
    message := error.message
    span := error.span file }

end SyntaxError

/-- The error for the tokens that a parser left unread. -/
def Lexed.refusal (lexed : Lexed) : List Token → SyntaxError
  | token :: _ => .unexpectedToken token
  | [] =>
      match lexed.stray with
      | some (character, place) => .strayCharacter character place
      | none => .unexpectedEnd lexed.endPlace

/-- Read a program from what a text reads as.  A stray character is an error even
when the tokens before it form a program. -/
def Lexed.program (lexed : Lexed) : Except SyntaxError Program :=
  match Derivation.Program.read lexed.tokens, lexed.stray with
  | .error unread, _ => .error (lexed.refusal unread)
  | .ok _, some (character, place) => .error (.strayCharacter character place)
  | .ok (derivation, _), none =>
      match derivation.tree.strayOperand? with
      | some place => .error (.spawnWithoutCall place)
      | none => .ok derivation.tree

/-- Read a source text as a program. -/
def parse (source : String) : Except SyntaxError Program :=
  (Lexed.read source).program

end LifecycleHooks.Surface

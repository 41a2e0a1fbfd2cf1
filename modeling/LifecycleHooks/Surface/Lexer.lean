import LifecycleHooks.Surface.Token

/-!
# Reading tokens

A text is cut into pieces from the left.  Runs of blanks and comments are dropped, a run
of name characters is a keyword or a name, a run of digits is an integer, and a
hook name stands between two backticks on one line.  Reading stops at the first
character that starts no piece, which is kept for the error report.
-/

namespace LifecycleHooks.Surface

/-- The blanks between tokens. -/
def isBlank (character : Char) : Bool :=
  character ∈ [' ', '\t', '\x0c', '\r', '\n']

/-- The ASCII letters and the underscore. -/
def isNameStart (character : Char) : Bool :=
  character.isAlpha || character = '_'

/-- The ASCII letters, the ASCII digits and the underscore. -/
def isNamePart (character : Char) : Bool :=
  character.isAlphanum || character = '_'

/-- The characters that a hook name can hold. -/
def isHookPart (character : Char) : Bool :=
  character ≠ '`' && character ≠ '\n'

/-- The lexeme of a run of name characters: keywords are no names. -/
def Lexeme.ofWord (word : String) : Lexeme :=
  match Keyword.ofText? word with
  | some reserved => .keyword reserved
  | none => .name word

/-- One piece of a text: the characters it takes and the lexeme they write, if
they are not blank. -/
structure Piece where
  lexeme : Option Lexeme
  taken : List Char
deriving DecidableEq, Repr

/-- The piece at the front of a text, if its first character starts one. -/
def piece? : List Char → Option Piece
  | [] => none
  | first :: rest =>
      if isBlank first then
        some ⟨none, first :: rest.takeWhile isBlank⟩
      else if first = '#' then
        some ⟨none, first :: rest.takeWhile (· ≠ '\n')⟩
      else if isNameStart first then
        let word := first :: rest.takeWhile isNamePart
        some ⟨some (.ofWord (String.ofList word)), word⟩
      else if first.isDigit then
        let digits := first :: rest.takeWhile Char.isDigit
        some ⟨some (.integer (String.ofList digits)), digits⟩
      else if first = '`' then
        let name := rest.takeWhile isHookPart
        if name ≠ [] ∧ (rest.drop name.length).head? = some '`' then
          some ⟨some (.hookName (String.ofList name)), first :: name ++ ['`']⟩
        else
          none
      else
        (Mark.ofCharacter? first).map fun mark => ⟨some (.mark mark), [first]⟩

/-- What a text reads as: its tokens up to the first character that starts no
piece, and that character with its place, if there is one. -/
structure Lexed where
  tokens : List Token
  stray : Option (Char × Position)
deriving DecidableEq, Repr

namespace Lexed

/-- Put the lexeme of a piece, if any, in front of what follows it. -/
def cons (lexeme : Option Lexeme) (place : Position) (lexed : Lexed) : Lexed :=
  match lexeme with
  | none => lexed
  | some lexeme => { lexed with tokens := ⟨lexeme, place⟩ :: lexed.tokens }

/-- Read at most `fuel` pieces of a text that starts at `place`. -/
def readWithin : (fuel : Nat) → (place : Position) → List Char → Lexed
  | 0, _, _ => ⟨[], none⟩
  | _ + 1, _, [] => ⟨[], none⟩
  | fuel + 1, place, first :: rest =>
      match piece? (first :: rest) with
      | none => ⟨[], some (first, place)⟩
      | some piece =>
          cons piece.lexeme place
            (readWithin fuel (piece.taken.foldl Position.advance place)
              ((first :: rest).drop piece.taken.length))

/-- Read a whole text.  Every piece takes a character, so the length of the text
bounds their number. -/
def read (text : String) : Lexed :=
  readWithin text.toList.length .start text.toList

/-- The place at which an error at the end of the text is reported: where the
last token starts. -/
def endPlace (lexed : Lexed) : Position :=
  (lexed.tokens.getLast?.map Token.place).getD .start

end Lexed
end LifecycleHooks.Surface

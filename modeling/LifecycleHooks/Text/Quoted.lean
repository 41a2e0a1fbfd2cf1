import LifecycleHooks.Text.Printable

/-!
# Quoted text

A text is quoted between single quotes, or between double quotes when it holds a
single quote and no double quote.  The backslash and the enclosing quote are
escaped by a backslash, tab, line feed and carriage return by their letters, and
every other character that is not printable by its code point in two, four or
eight hexadecimal digits.
-/

namespace LifecycleHooks.Text

/-- The lower-case hexadecimal digit of a number below sixteen. -/
def hexDigit (number : Nat) : Char :=
  if number < 10 then Char.ofNat (48 + number) else Char.ofNat (87 + number)

/-- The last `width` hexadecimal digits of a number. -/
def hexDigits : (width number : Nat) → List Char
  | 0, _ => []
  | width + 1, number => hexDigits width (number / 16) ++ [hexDigit (number % 16)]

@[simp]
theorem length_hexDigits (width number : Nat) : (hexDigits width number).length = width := by
  induction width generalizing number with
  | zero => rfl
  | succ width ih => simp [hexDigits, ih]

/-- The escape of a character that is not printable. -/
def escapeCodePoint (character : Char) : List Char :=
  let number := character.toNat
  if number < 0x100 then '\\' :: 'x' :: hexDigits 2 number
  else if number < 0x10000 then '\\' :: 'u' :: hexDigits 4 number
  else '\\' :: 'U' :: hexDigits 8 number

/-- A character as it stands between the given quotes. -/
def quoteCharacter (quote character : Char) : List Char :=
  if character = quote ∨ character = '\\' then ['\\', character]
  else if character = '\t' then ['\\', 't']
  else if character = '\n' then ['\\', 'n']
  else if character = '\r' then ['\\', 'r']
  else if isPrintable character then [character]
  else escapeCodePoint character

/-- The quote that encloses a text. -/
def enclosingQuote (characters : List Char) : Char :=
  if '\'' ∈ characters ∧ '"' ∉ characters then '"' else '\''

/-- A text between quotes, with its special characters escaped. -/
def quoted (text : String) : String :=
  let quote := enclosingQuote text.toList
  String.ofList (quote :: text.toList.flatMap (quoteCharacter quote) ++ [quote])

end LifecycleHooks.Text

import LifecycleHooks.Text.Quoted

/-!
# JSON text

Values are written on one line, with a space behind every comma and colon, and in
ASCII only: any other character becomes one or two escapes of four hexadecimal
digits.  The members of an object stand in the order given.
-/

namespace LifecycleHooks.Text

/-- A JSON value. -/
inductive Json where
  | null
  | number (value : Int)
  | string (text : String)
  | array (items : List Json)
  | object (members : List (String × Json))
deriving Repr

namespace Json

/-- The escape of a number below 2^16. -/
def escapeUnit (number : Nat) : List Char := '\\' :: 'u' :: hexDigits 4 number

/-- A character inside a JSON string. -/
def escapeCharacter (character : Char) : List Char :=
  let number := character.toNat
  if character = '"' then ['\\', '"']
  else if character = '\\' then ['\\', '\\']
  else if character = '\n' then ['\\', 'n']
  else if character = '\r' then ['\\', 'r']
  else if character = '\t' then ['\\', 't']
  else if number = 8 then ['\\', 'b']
  else if number = 12 then ['\\', 'f']
  else if 32 ≤ number ∧ number < 127 then [character]
  else if number < 0x10000 then escapeUnit number
  else
    escapeUnit (0xd800 + (number - 0x10000) / 0x400) ++
      escapeUnit (0xdc00 + (number - 0x10000) % 0x400)

/-- A JSON string. -/
def quote (text : String) : String :=
  String.ofList ('"' :: text.toList.flatMap escapeCharacter ++ ['"'])

/-- Items with commas between them. -/
def joined (items : List String) : String := ", ".intercalate items

mutual

/-- The text of a value. -/
def text : Json → String
  | .null => "null"
  | .number value => toString value
  | .string content => quote content
  | .array items => "[" ++ joined (itemTexts items) ++ "]"
  | .object members => "\x7b" ++ joined (memberTexts members) ++ "\x7d"

/-- The texts of the items of an array. -/
def itemTexts : List Json → List String
  | [] => []
  | item :: rest => item.text :: itemTexts rest

/-- The texts of the members of an object. -/
def memberTexts : List (String × Json) → List String
  | [] => []
  | (key, value) :: rest => (quote key ++ ": " ++ value.text) :: memberTexts rest

end

/-- A value that may be missing. -/
def ofOption {α : Type} (value : α → Json) : Option α → Json
  | none => .null
  | some content => value content

/-- A list of strings. -/
def strings (texts : List String) : Json := .array (texts.map .string)

end Json
end LifecycleHooks.Text

import LifecycleHooks.Text.Quoted

/-!
# Reading UTF-8

Bytes are read as UTF-8 from the left.  A sequence may be refused because its
first byte starts none, because a byte in it continues none, or because the bytes
end inside it; the error tells the bytes up to the refused one.  Overlong forms,
surrogates and numbers beyond the last code point are refused at the second byte.
-/

namespace LifecycleHooks.Text

/-- Why a sequence of bytes is refused. -/
inductive Utf8Defect where
  | invalidStart
  | invalidContinuation
  | unexpectedEnd
deriving DecidableEq, Repr

/-- The words for a refusal. -/
def Utf8Defect.words : Utf8Defect → String
  | .invalidStart => "invalid start byte"
  | .invalidContinuation => "invalid continuation byte"
  | .unexpectedEnd => "unexpected end of data"

/-- A refused sequence: where it starts, its first byte, and how many bytes of it
are refused. -/
structure Utf8Error where
  position : Nat
  byte : UInt8
  count : Nat
  defect : Utf8Defect
deriving DecidableEq, Repr

/-- The message of a refusal. -/
def Utf8Error.message (error : Utf8Error) : String :=
  let bytes :=
    if error.count = 1 then
      s!"byte 0x{String.ofList (hexDigits 2 error.byte.toNat)} in position {error.position}"
    else
      s!"bytes in position {error.position}-{error.position + error.count - 1}"
  s!"'utf-8' codec can't decode {bytes}: {error.defect.words}"

/-- How a first byte goes on: how many bytes follow, the bits it carries, and the
range of the second byte. -/
structure Utf8Lead where
  following : Nat
  bits : Nat
  least : Nat
  greatest : Nat
deriving DecidableEq, Repr

/-- What a first byte says about its sequence, if it starts one. -/
def utf8Lead? (byte : UInt8) : Option Utf8Lead :=
  let number := byte.toNat
  if number < 0x80 then some ⟨0, number, 0, 0⟩
  else if number < 0xc2 then none
  else if number < 0xe0 then some ⟨1, number - 0xc0, 0x80, 0xbf⟩
  else if number = 0xe0 then some ⟨2, 0, 0xa0, 0xbf⟩
  else if number = 0xed then some ⟨2, 0xd, 0x80, 0x9f⟩
  else if number < 0xf0 then some ⟨2, number - 0xe0, 0x80, 0xbf⟩
  else if number = 0xf0 then some ⟨3, 0, 0x90, 0xbf⟩
  else if number < 0xf4 then some ⟨3, number - 0xf0, 0x80, 0xbf⟩
  else if number = 0xf4 then some ⟨3, 4, 0x80, 0x8f⟩
  else none

/-- Read the bytes that follow a first byte.  The first of them lies in the given
range, the others in the whole range of continuation bytes.  A refusal tells how
many bytes were fine. -/
def utf8Following : (following value least greatest : Nat) → List UInt8 →
    Except (Nat × Utf8Defect) (Nat × List UInt8)
  | 0, value, _, _, bytes => .ok (value, bytes)
  | _ + 1, _, _, _, [] => .error (0, .unexpectedEnd)
  | following + 1, value, least, greatest, byte :: rest =>
      if least ≤ byte.toNat ∧ byte.toNat ≤ greatest then
        match utf8Following following (value * 64 + (byte.toNat - 0x80)) 0x80 0xbf rest with
        | .ok read => .ok read
        | .error (fine, defect) => .error (fine + 1, defect)
      else
        .error (0, .invalidContinuation)

/-- Read at most `fuel` characters from bytes that start at a position. -/
def utf8Within : (fuel position : Nat) → List UInt8 → Except Utf8Error (List Char)
  | 0, _, _ => .ok []
  | _ + 1, _, [] => .ok []
  | fuel + 1, position, byte :: rest =>
      match utf8Lead? byte with
      | none => .error ⟨position, byte, 1, .invalidStart⟩
      | some lead =>
          match utf8Following lead.following lead.bits lead.least lead.greatest rest with
          | .error (fine, defect) => .error ⟨position, byte, fine + 1, defect⟩
          | .ok (value, rest) =>
              match utf8Within fuel (position + 1 + lead.following) rest with
              | .ok characters => .ok (Char.ofNat value :: characters)
              | .error error => .error error

/-- Read bytes as UTF-8.  Each character takes a byte or more. -/
def decodeUtf8 (bytes : List UInt8) : Except Utf8Error String :=
  String.ofList <$> utf8Within bytes.length 0 bytes

/-- Line feeds in place of carriage returns, with or without a line feed behind
them. -/
def universalNewlines : List Char → List Char
  | [] => []
  | '\r' :: '\n' :: rest => '\n' :: universalNewlines rest
  | '\r' :: rest => '\n' :: universalNewlines rest
  | character :: rest => character :: universalNewlines rest

end LifecycleHooks.Text

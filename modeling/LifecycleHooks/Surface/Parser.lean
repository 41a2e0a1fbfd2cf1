import LifecycleHooks.Surface.Derivation
import LifecycleHooks.Surface.Lexer

/-!
# Reading derivations

A parser reads a list of tokens from the left and refuses at the first token
that cannot follow what was read.  A refusal holds the tokens from that one on,
so the offending token is the first of them, or the end of the text when none is
left.  One token of look-ahead decides every choice.
-/

namespace LifecycleHooks.Surface

/-- A reader of tokens.  A refusal holds the tokens that were not read. -/
abbrev Parser := StateT (List Token) (Except (List Token))

namespace Parser

variable {Item : Type}

/-- Refuse the next token. -/
def refuse : Parser Item := fun tokens => .error tokens

/-- The next token, which stays unread. -/
def peek : Parser (Option Token) := fun tokens => .ok (tokens.head?, tokens)

/-- The lexeme of the next token, which stays unread. -/
def peekLexeme : Parser (Option Lexeme) := fun tokens => .ok (tokens.head?.map Token.lexeme, tokens)

/-- Leave out the next token. -/
def skip : Parser Unit := fun tokens => .ok ((), tokens.tail)

/-- Run a parser that is given the number of tokens that are left, which bounds how deeply
they can nest. -/
def bounded (parser : Nat → Parser Item) : Parser Item := fun tokens => parser tokens.length tokens

/-- Read a token with the given lexeme, and give its place. -/
def expect (lexeme : Lexeme) : Parser Position := do
  match ← peek with
  | some token =>
      if token.lexeme = lexeme then do
        skip
        return token.place
      else
        refuse
  | none => refuse

/-- Read a name. -/
def expectName : Parser Word := do
  match ← peek with
  | some ⟨.name text, place⟩ => do
      skip
      return ⟨text, place⟩
  | _ => refuse

/-- Read a number. -/
def expectInteger : Parser Word := do
  match ← peek with
  | some ⟨.integer digits, place⟩ => do
      skip
      return ⟨digits, place⟩
  | _ => refuse

/-- Read a token if it has the given lexeme, and give its place if it had. -/
def accept (lexeme : Lexeme) : Parser (Option Position) := do
  match ← peek with
  | some token =>
      if token.lexeme = lexeme then do
        skip
        return some token.place
      else
        return none
  | none => return none

/-- Read what follows a token of the given lexeme, if there is one. -/
def after? (lexeme : Lexeme) (parser : Parser Item) : Parser (Option (Position × Item)) := do
  match ← accept lexeme with
  | some place => return some (place, ← parser)
  | none => return none

/-- Read at most `fuel` items, each behind a comma. -/
def commaItems (item : Parser Item) : (fuel : Nat) → Parser (List (Position × Item))
  | 0 => return []
  | fuel + 1 => do
      match ← accept (.mark .comma) with
      | some comma => do
          let next ← item
          return (comma, next) :: (← commaItems item fuel)
      | none => return []

/-- Read one or more items with commas between them. -/
def separated (item : Parser Item) : Parser (Separated Item) := do
  let first ← item
  return ⟨first, ← bounded (commaItems item)⟩

/-- Read items with commas between them up to a closing mark. -/
def listed (item : Parser Item) (close : Mark) : Parser (Option (Separated Item) × Position) := do
  match ← accept (.mark close) with
  | some closing => return (none, closing)
  | none => do
      let items ← separated item
      return (some items, ← expect (.mark close))

/-- Read at most `fuel` items up to a closing lexeme. -/
def itemsUntil (item : Parser Item) (close : Lexeme) : (fuel : Nat) → Parser (List Item × Position)
  | 0 => refuse
  | fuel + 1 => do
      match ← accept close with
      | some closing => return ([], closing)
      | none => do
          let first ← item
          let (rest, closing) ← itemsUntil item close fuel
          return (first :: rest, closing)

end Parser

open LifecycleHooks.Surface.Parser

namespace Derivation

namespace TypeRef

/-- Read a spelled type that nests at most `depth` deep. -/
def readWithin : (depth : Nat) → Parser TypeRef
  | 0 => refuse
  | depth + 1 => do
      match ← peek with
      | some ⟨.name name, place⟩ => do
          skip
          match ← accept (.mark .leftBracket) with
          | some opening => do
              let args ← separated (readWithin depth)
              return .generic ⟨name, place⟩ opening args (← expect (.mark .rightBracket))
          | none => return .named ⟨name, place⟩
      | some ⟨.keyword .array, place⟩ => do
          skip
          let opening ← expect (.mark .leftBracket)
          let length ← expectInteger
          let comma ← expect (.mark .comma)
          let element ← readWithin depth
          return .array place opening length comma element (← expect (.mark .rightBracket))
      | some ⟨.keyword .seq, place⟩ => do
          skip
          let opening ← expect (.mark .leftBracket)
          let element ← readWithin depth
          return .seq place opening element (← expect (.mark .rightBracket))
      | some ⟨.keyword .tuple, place⟩ => do
          skip
          let opening ← expect (.mark .leftBracket)
          let elements ← separated (readWithin depth)
          return .tuple place opening elements (← expect (.mark .rightBracket))
      | some ⟨.keyword .ref, place⟩ => do
          skip
          return .ref place (← readWithin depth)
      | some ⟨.keyword .ptr, place⟩ => do
          skip
          return .ptr place (← readWithin depth)
      | some ⟨.keyword .var, place⟩ => do
          skip
          return .var place (← readWithin depth)
      | some ⟨.keyword .lent, place⟩ => do
          skip
          return .lent place (← readWithin depth)
      | _ => refuse

/-- Read a spelled type.  Each level of nesting takes a token. -/
def read : Parser TypeRef := bounded fun size => readWithin (size + 1)

end TypeRef

/-- Read a name with a spelled type behind a colon. -/
def Member.read : Parser Member := do
  let name ← expectName
  let colon ← expect (.mark .colon)
  return ⟨name, colon, ← TypeRef.read⟩

/-- Read the names of type parameters between brackets, if there are any. -/
def TypeParams.read? : Parser (Option TypeParams) := do
  match ← accept (.mark .leftBracket) with
  | some opening => do
      let names ← separated expectName
      return some ⟨opening, names, ← expect (.mark .rightBracket)⟩
  | none => return none

namespace TypeBody

/-- Read at most `fuel` fields, each behind a comma, and the comma that may stand behind the
last one. -/
def readFields : (fuel : Nat) → Parser (List (Position × Member) × Option Position)
  | 0 => return ([], none)
  | fuel + 1 => do
      match ← accept (.mark .comma) with
      | some comma => do
          if (← peekLexeme) = some (.mark .rightBrace) then
            return ([], some comma)
          else do
            let next ← Member.read
            let (rest, last) ← readFields fuel
            return ((comma, next) :: rest, last)
      | none => return ([], none)

/-- Read the fields of an object behind its opening brace.  An object without fields may hold a
single comma. -/
def readObject (place : Position) (base : Option (Position × TypeRef)) (opening : Position) : Parser TypeBody := do
  match ← peekLexeme with
  | some (.mark .comma) | some (.mark .rightBrace) => do
      let comma ← accept (.mark .comma)
      return .object place base opening none comma (← expect (.mark .rightBrace))
  | _ => do
      let first ← Member.read
      let (rest, comma) ← bounded readFields
      return .object place base opening (some ⟨first, rest⟩) comma (← expect (.mark .rightBrace))

/-- Read what a type is declared to be. -/
def read : Parser TypeBody := do
  match ← peek with
  | some ⟨.keyword .object, place⟩ => do
      skip
      let base ← after? (.keyword .of) TypeRef.read
      readObject place base (← expect (.mark .leftBrace))
  | some ⟨.keyword .distinct, place⟩ => do
      skip
      return .distinct place (← TypeRef.read)
  | _ => refuse

end TypeBody

/-- Read a type declaration behind its keyword. -/
def TypeDef.read (place : Position) : Parser TypeDef := do
  let name ← expectName
  let params ← TypeParams.read?
  let equal ← expect (.mark .equal)
  return ⟨place, name, params, equal, ← TypeBody.read⟩

namespace Expr

/-- Read at most `fuel` field names behind an expression. -/
def readFields : (fuel : Nat) → Expr → Parser Expr
  | 0, subject => return subject
  | fuel + 1, subject => do
      match ← accept (.mark .dot) with
      | some dot => do
          let member ← expectName
          readFields fuel (.field subject dot member)
      | none => return subject

/-- Read an expression up to its field names, with the given reader for the expressions inside
of it. -/
def readPrimary (inside : Parser Expr) : Parser Expr := do
  match ← peek with
  | some ⟨.name text, place⟩ => do
      skip
      match ← accept (.mark .leftParen) with
      | some opening => do
          let (args, closing) ← listed inside .rightParen
          return .call ⟨text, place⟩ opening args closing
      | none => return .name ⟨text, place⟩
  | some ⟨.integer digits, place⟩ => do
      skip
      return .integer ⟨digits, place⟩
  | some ⟨.keyword .true, place⟩ => do
      skip
      return .true place
  | some ⟨.keyword .false, place⟩ => do
      skip
      return .false place
  | some ⟨.mark .leftParen, opening⟩ => do
      skip
      let inner ← inside
      return .paren opening inner (← expect (.mark .rightParen))
  | _ => refuse

/-- Read an expression that nests at most `depth` deep. -/
def readWithin : (depth : Nat) → Parser Expr
  | 0 => refuse
  | depth + 1 => do
      let subject ← readPrimary (readWithin depth)
      bounded fun size => readFields size subject

/-- Read an expression.  Each level of nesting takes a token. -/
def read : Parser Expr := bounded fun size => readWithin (size + 1)

end Expr

/-- Read statements up to a closing brace, each with the given reader. -/
def Block.readWith (statement : Parser Stmt) : Parser Block := do
  let opening ← expect (.mark .leftBrace)
  let (statements, closing) ← bounded fun size => itemsUntil statement (.mark .rightBrace) (size + 1)
  return .mk opening statements closing

namespace Stmt

/-- Read the rest of a declaration of a mutable local. -/
def readVar (place : Position) : Parser Stmt := do
  let name ← expectName
  let type ← after? (.mark .colon) TypeRef.read
  let value ← after? (.mark .equal) Expr.read
  return .var place name type value (← expect (.mark .semicolon))

/-- Read the rest of a declaration of an immutable local, which has a value. -/
def readLet (place : Position) : Parser Stmt := do
  let name ← expectName
  let type ← after? (.mark .colon) TypeRef.read
  let equal ← expect (.mark .equal)
  let value ← Expr.read
  return .let place name type equal value (← expect (.mark .semicolon))

/-- Read the rest of a return. -/
def readReturn (place : Position) : Parser Stmt := do
  match ← accept (.mark .semicolon) with
  | some semicolon => return .return place none semicolon
  | none => do
      let value ← Expr.read
      return .return place (some value) (← expect (.mark .semicolon))

/-- Read an assignment or an expression used as a statement. -/
def readPlain : Parser Stmt := do
  let target ← Expr.read
  match ← after? (.mark .equal) Expr.read with
  | some (equal, value) => return .assign target equal value (← expect (.mark .semicolon))
  | none => return .expr target (← expect (.mark .semicolon))

end Stmt

mutual

/-- Read a statement that nests at most `depth` deep. -/
def Stmt.readWithin : (depth : Nat) → Parser Stmt
  | 0 => refuse
  | depth + 1 => do
      match ← peek with
      | some ⟨.keyword .var, place⟩ => do
          skip
          Stmt.readVar place
      | some ⟨.keyword .let, place⟩ => do
          skip
          Stmt.readLet place
      | some ⟨.keyword .return, place⟩ => do
          skip
          Stmt.readReturn place
      | some ⟨.keyword .if, place⟩ => do
          skip
          return .branch (← Branch.readWithin depth place)
      | some ⟨.keyword .while, place⟩ => do
          skip
          let condition ← Expr.read
          return .while place condition (← Block.readWith (Stmt.readWithin depth))
      | some ⟨.keyword .break, place⟩ => do
          skip
          return .break place (← expect (.mark .semicolon))
      | some ⟨.keyword .continue, place⟩ => do
          skip
          return .continue place (← expect (.mark .semicolon))
      | some ⟨.keyword .block, place⟩ => do
          skip
          return .block place (← Block.readWith (Stmt.readWithin depth))
      | some ⟨.keyword .spawn, place⟩ => do
          skip
          let operand ← Expr.read
          return .spawn place operand (← expect (.mark .semicolon))
      | _ => Stmt.readPlain

/-- Read the rest of a branch, whose alternatives nest at most `depth` deep. -/
def Branch.readWithin : (depth : Nat) → Position → Parser Branch
  | 0, _ => refuse
  | depth + 1, place => do
      let condition ← Expr.read
      let yes ← Block.readWith (Stmt.readWithin depth)
      match ← accept (.keyword .else) with
      | none => return .mk place condition yes none
      | some otherwise => do
          match ← accept (.keyword .if) with
          | some inner => return .mk place condition yes (some (.branch otherwise (← Branch.readWithin depth inner)))
          | none => return .mk place condition yes (some (.block otherwise (← Block.readWith (Stmt.readWithin depth))))

end

/-- Read a statement.  Each level of nesting takes a token. -/
def Stmt.read : Parser Stmt := bounded fun size => Stmt.readWithin (size + 1)

/-- Read the name of a procedure or of a hook. -/
def ProcName.read : Parser ProcName := do
  match ← peek with
  | some ⟨.name text, place⟩ => do
      skip
      return .plain ⟨text, place⟩
  | some ⟨.hookName text, place⟩ => do
      skip
      return .hook ⟨text, place⟩
  | _ => refuse

/-- Read a procedure behind its keyword. -/
def ProcDef.read (place : Position) : Parser ProcDef := do
  let name ← ProcName.read
  let typeParams ← TypeParams.read?
  let opening ← expect (.mark .leftParen)
  let (params, closing) ← listed Member.read .rightParen
  let result ← after? (.mark .colon) TypeRef.read
  return ⟨place, name, typeParams, opening, params, closing, result, ← Block.readWith Stmt.read⟩

/-- Read at most `fuel` declarations up to the end of the text. -/
def Item.readAll : (fuel : Nat) → Parser (List Item)
  | 0 => refuse
  | fuel + 1 => do
      match ← peek with
      | none => return []
      | some ⟨.keyword .type, place⟩ => do
          skip
          let decl ← TypeDef.read place
          return .type decl :: (← Item.readAll fuel)
      | some ⟨.keyword .proc, place⟩ => do
          skip
          let decl ← ProcDef.read place
          return .proc decl :: (← Item.readAll fuel)
      | _ => refuse

/-- Read a program from all the tokens of a text. -/
def Program.read : Parser Program := do
  return ⟨← bounded fun size => Item.readAll (size + 1)⟩

end Derivation
end LifecycleHooks.Surface

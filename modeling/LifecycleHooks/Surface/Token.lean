import LifecycleHooks.Source.Span

/-!
# Tokens of the source language

A token is a lexeme at a place.  A lexeme is a name, an integer, a hook name
between backticks, a keyword or a punctuation mark; each knows the text it was
written as and the name of its class, which syntax errors mention.
-/

namespace LifecycleHooks.Surface

/-- The reserved words. -/
inductive Keyword where
  | type | object | of | distinct
  | array | seq | tuple | ref | ptr | var | lent
  | proc | let | if | else | while | block | spawn
  | return | break | continue | true | false
deriving DecidableEq, Repr

namespace Keyword

/-- All reserved words. -/
def all : List Keyword :=
  [.type, .object, .of, .distinct, .array, .seq, .tuple, .ref, .ptr, .var, .lent, .proc, .let,
    .if, .else, .while, .block, .spawn, .return, .break, .continue, .true, .false]

/-- The spelling of a reserved word. -/
def text : Keyword → String
  | .type => "type"
  | .object => "object"
  | .of => "of"
  | .distinct => "distinct"
  | .array => "array"
  | .seq => "seq"
  | .tuple => "tuple"
  | .ref => "ref"
  | .ptr => "ptr"
  | .var => "var"
  | .lent => "lent"
  | .proc => "proc"
  | .let => "let"
  | .if => "if"
  | .else => "else"
  | .while => "while"
  | .block => "block"
  | .spawn => "spawn"
  | .return => "return"
  | .break => "break"
  | .continue => "continue"
  | .true => "true"
  | .false => "false"

/-- The reserved word with the given spelling. -/
def ofText? (text : String) : Option Keyword :=
  all.find? (·.text = text)

theorem ofText?_text (keyword : Keyword) : ofText? keyword.text = some keyword := by
  cases keyword <;> decide

end Keyword

/-- The punctuation marks. -/
inductive Mark where
  | equal | comma | colon | semicolon | dot
  | leftBracket | rightBracket | leftBrace | rightBrace | leftParen | rightParen
deriving DecidableEq, Repr

namespace Mark

/-- All punctuation marks. -/
def all : List Mark :=
  [.equal, .comma, .colon, .semicolon, .dot, .leftBracket, .rightBracket, .leftBrace,
    .rightBrace, .leftParen, .rightParen]

/-- The character of a punctuation mark. -/
def character : Mark → Char
  | .equal => '='
  | .comma => ','
  | .colon => ':'
  | .semicolon => ';'
  | .dot => '.'
  | .leftBracket => '['
  | .rightBracket => ']'
  | .leftBrace => '{'
  | .rightBrace => '}'
  | .leftParen => '('
  | .rightParen => ')'

/-- The name of the class of a punctuation mark. -/
def terminal : Mark → String
  | .equal => "EQUAL"
  | .comma => "COMMA"
  | .colon => "COLON"
  | .semicolon => "SEMICOLON"
  | .dot => "DOT"
  | .leftBracket => "LSQB"
  | .rightBracket => "RSQB"
  | .leftBrace => "LBRACE"
  | .rightBrace => "RBRACE"
  | .leftParen => "LPAR"
  | .rightParen => "RPAR"

/-- The punctuation mark that a character writes. -/
def ofCharacter? (character : Char) : Option Mark :=
  all.find? (·.character = character)

theorem ofCharacter?_character (mark : Mark) : ofCharacter? mark.character = some mark := by
  cases mark <;> decide

end Mark

/-- What a token says. -/
inductive Lexeme where
  | name (text : String)
  | integer (digits : String)
  | hookName (name : String)
  | keyword (keyword : Keyword)
  | mark (mark : Mark)
deriving DecidableEq, Repr

namespace Lexeme

/-- The text that a lexeme is written as. -/
def text : Lexeme → String
  | .name spelling => spelling
  | .integer digits => digits
  | .hookName inner => "`" ++ inner ++ "`"
  | .keyword word => word.text
  | .mark sign => sign.character.toString

/-- The name of the class of a lexeme. -/
def terminal : Lexeme → String
  | .name _ => "NAME"
  | .integer _ => "INT"
  | .hookName _ => "HOOK_NAME"
  | .keyword word => word.text.toUpper
  | .mark sign => sign.terminal

end Lexeme

/-- A lexeme and the place of its first character. -/
structure Token where
  lexeme : Lexeme
  place : Position
deriving DecidableEq, Repr

end LifecycleHooks.Surface

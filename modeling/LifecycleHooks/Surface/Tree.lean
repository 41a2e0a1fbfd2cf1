import LifecycleHooks.Source.Span

/-!
# Syntax trees of the source language

A program declares types and procedures.  Every node carries the place it was
written at.  Types are spelled by names with arguments, by the one-operand
constructors, by arrays and by tuples; nothing is resolved yet.
-/

namespace LifecycleHooks

/-- The type constructors with a single operand. -/
inductive Wrapper where
  | seq
  | ref
  | ptr
  | var
  | lent
deriving DecidableEq, Repr

namespace Wrapper

/-- The spelling of a one-operand constructor. -/
def word : Wrapper → String
  | .seq => "seq"
  | .ref => "ref"
  | .ptr => "ptr"
  | .var => "var"
  | .lent => "lent"

end Wrapper

namespace Surface

/-- A spelled type. -/
inductive TypeExpr where
  | named (place : Position) (name : String) (args : List TypeExpr)
  | wrap (place : Position) (wrapper : Wrapper) (inner : TypeExpr)
  | array (place : Position) (length : Nat) (element : TypeExpr)
  | tuple (place : Position) (elements : List TypeExpr)
deriving Repr

/-- The place of a spelled type. -/
def TypeExpr.place : TypeExpr → Position
  | .named place .. | .wrap place .. | .array place .. | .tuple place .. => place

/-- A field or a parameter: a name with a spelled type. -/
structure Member where
  place : Position
  name : String
  type : TypeExpr
deriving Repr

/-- A declared object type. -/
structure ObjectDecl where
  place : Position
  name : String
  typeParams : List String
  base : Option TypeExpr
  fields : List Member
deriving Repr

/-- A declared distinct type. -/
structure DistinctDecl where
  place : Position
  name : String
  underlying : TypeExpr
deriving Repr

/-- A type declaration. -/
inductive TypeDecl where
  | object (decl : ObjectDecl)
  | distinct (decl : DistinctDecl)
deriving Repr

/-- An expression. -/
inductive Expr where
  | name (place : Position) (name : String)
  | integer (place : Position) (value : Nat)
  | boolean (place : Position) (value : Bool)
  | call (place : Position) (callee : String) (args : List Expr)
  | field (place : Position) (subject : Expr) (name : String)
deriving Repr

/-- The place of an expression.  Parentheses do not move it, except that a field
starts where its subject starts, parentheses included. -/
def Expr.place : Expr → Position
  | .name place .. | .integer place .. | .boolean place .. | .call place .. | .field place .. =>
      place

/-- Whether an expression is a call. -/
def Expr.isCall : Expr → Bool
  | .call .. => true
  | _ => false

mutual

/-- A statement. -/
inductive Stmt where
  | declare (place : Position) (name : String) (type : Option TypeExpr) (value : Option Expr)
      (mutability : Bool)
  | assign (place : Position) (target value : Expr)
  | expr (place : Position) (expr : Expr)
  | return (place : Position) (value : Option Expr)
  | branch (place : Position) (condition : Expr) (yes : Block) (no : Option Block)
  | loop (place : Position) (condition : Expr) (body : Block)
  | break (place : Position)
  | continue (place : Position)
  | block (place : Position) (block : Block)
  | spawn (place : Position) (operand : Expr)
deriving Repr

/-- A list of statements between braces. -/
inductive Block where
  | mk (place : Position) (statements : List Stmt)
deriving Repr

end

/-- The place of a statement. -/
def Stmt.place : Stmt → Position
  | .declare place .. | .assign place .. | .expr place .. | .return place .. | .branch place ..
  | .loop place .. | .break place | .continue place | .block place .. | .spawn place .. => place

/-- The place of the opening brace of a block. -/
def Block.place : Block → Position
  | .mk place _ => place

/-- The statements of a block. -/
def Block.statements : Block → List Stmt
  | .mk _ statements => statements

/-- A declared procedure.  Hooks are the procedures named between backticks. -/
structure ProcDecl where
  place : Position
  name : String
  isHook : Bool
  typeParams : List String
  params : List Member
  result : Option TypeExpr
  body : Block
deriving Repr

/-- A program: its types and its procedures, each in the order written. -/
structure Program where
  types : List TypeDecl
  procs : List ProcDecl
deriving Repr

mutual

/-- The place of the first spawn under a statement whose operand is no call. -/
def Stmt.strayOperand? : Stmt → Option Position
  | .branch _ _ yes none => yes.strayOperand?
  | .branch _ _ yes (some no) => yes.strayOperand?.or no.strayOperand?
  | .loop _ _ body => body.strayOperand?
  | .block _ block => block.strayOperand?
  | .spawn place operand => if operand.isCall then none else some place
  | .declare .. | .assign .. | .expr .. | .return .. | .break _ | .continue _ => none

/-- The place of the first spawn in a block whose operand is no call. -/
def Block.strayOperand? : Block → Option Position
  | .mk _ statements => strayOperandIn? statements

/-- The place of the first spawn among statements whose operand is no call. -/
def strayOperandIn? : List Stmt → Option Position
  | [] => none
  | statement :: rest => statement.strayOperand?.or (strayOperandIn? rest)

end

/-- The place of the first spawn of a program whose operand is no call. -/
def Program.strayOperand? (program : Program) : Option Position :=
  program.procs.findSome? (·.body.strayOperand?)

end Surface
end LifecycleHooks

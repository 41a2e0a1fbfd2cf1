import LifecycleHooks.Types.Basic

/-!
# Procedure bodies

A body is a tree of blocks, statements and expressions in which names are bound
and, where it is known, every expression carries its static type.  Every node has
a number within its procedure and a place.  Each block is a lexical scope.
-/

namespace LifecycleHooks

/-- The number of a node within its procedure. -/
abbrev NodeId := Int

/-- The number of a parameter or a local within its procedure. -/
abbrev BindingId := Int

/-- What every node carries: its number and its place. -/
structure Note where
  id : NodeId := 0
  span : Span := {}
deriving DecidableEq, Repr

/-- What every expression carries besides: its static type, where it is known. -/
structure ExprNote extends Note where
  type : Option TypeId := none
deriving DecidableEq, Repr

/-- An expression. -/
inductive Expr where
  | var (note : ExprNote) (name : String) (binding : Option BindingId)
  | integer (note : ExprNote) (value : Int)
  | boolean (note : ExprNote) (value : Bool)
  | call (note : ExprNote) (callee : String) (args : List Expr)
  | field (note : ExprNote) (subject : Expr) (name : String)
deriving Repr

namespace Expr

/-- What an expression carries. -/
def note : Expr → ExprNote
  | .var note .. | .integer note _ | .boolean note _ | .call note .. | .field note .. => note

/-- The number of an expression. -/
def id (expr : Expr) : NodeId := expr.note.id

/-- The static type of an expression, where it is known. -/
def type (expr : Expr) : Option TypeId := expr.note.type

/-- The expressions that stand directly inside an expression. -/
def children : Expr → List Expr
  | .call _ _ args => args
  | .field _ subject _ => [subject]
  | .var .. | .integer .. | .boolean .. => []

end Expr

mutual

/-- A statement. -/
inductive Stmt where
  | block (block : Block)
  | declare (note : Note) (name : String) (value : Option Expr) (type : Option TypeId)
      (mutability : Bool) (binding : Option BindingId)
  | assign (note : Note) (target value : Expr)
  | expr (note : Note) (expr : Expr)
  | return (note : Note) (value : Option Expr)
  | branch (note : Note) (condition : Expr) (yes : Block) (no : Option Block)
  | loop (note : Note) (condition : Expr) (body : Block)
  | break (note : Note)
  | continue (note : Note)
  | spawn (note : Note) (call : ExprNote) (callee : String) (args : List Expr)
deriving Repr

/-- A list of statements that forms one lexical scope. -/
inductive Block where
  | mk (note : Note) (statements : List Stmt)
deriving Repr

end

namespace Block

/-- What a block carries. -/
def note : Block → Note
  | .mk note _ => note

/-- The statements of a block. -/
def statements : Block → List Stmt
  | .mk _ statements => statements

end Block

/-- A parameter. -/
structure Param where
  note : Note
  name : String
  type : TypeId
  binding : Option BindingId
deriving DecidableEq, Repr

/-- A procedure.  When it gives a result, the implicit `result` local is bound
too; it is handed to the caller on every exit. -/
structure Procedure where
  note : Note
  name : String
  params : List Param
  result : TypeId
  body : Block
  resultBinding : Option BindingId
deriving Repr

/-- The types of the bindings of a procedure. -/
abbrev BindingTypes := List (BindingId × TypeId)

end LifecycleHooks

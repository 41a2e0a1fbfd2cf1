import LifecycleHooks.Procedure.Basic

/-!
# The expressions of a body and their sites

Every expression of a body stands at a site.  The whole value of a declaration,
of a `return` and of an assignment to the implicit result has a site of its own;
everything else, and whatever is nested inside another expression, stands at some
other place.  The call that a spawn hands to a task gives no value on this side:
only its arguments count as expressions of the body.
-/

namespace LifecycleHooks

/-- The sites at which an expression can stand. -/
inductive ContextSite where
  | varInit
  | letInit
  | returnValue
  | resultAssignment
  | other
deriving DecidableEq, Repr

namespace ContextSite

/-- The words for a site in a message. -/
def words : ContextSite → String
  | .varInit => "a `var` initializer"
  | .letInit => "a `let` initializer"
  | .returnValue => "a `return` value"
  | .resultAssignment => "an assignment to `result`"
  | .other => "an expression position"

end ContextSite

/-- The sites of expressions, by their numbers. -/
abbrev Sites := List (NodeId × ContextSite)

/-- Whether the target of an assignment is the implicit result itself.  Where no
binding is known on one of the sides, the name decides. -/
def Expr.isResult (resultBinding : Option BindingId) : Expr → Bool
  | .var _ name binding =>
      match resultBinding, binding with
      | some result, some target => target = result
      | _, _ => name = "result"
  | .integer .. | .boolean .. | .call .. | .field .. => false

mutual

/-- An expression and everything inside it, from the outside in. -/
def Expr.withParts : Expr → List Expr
  | .var note name binding => [.var note name binding]
  | .integer note value => [.integer note value]
  | .boolean note value => [.boolean note value]
  | .call note callee args => .call note callee args :: partsOf args
  | .field note subject name => .field note subject name :: subject.withParts

/-- Expressions and everything inside them, from left to right. -/
def partsOf : List Expr → List Expr
  | [] => []
  | expr :: rest => expr.withParts ++ partsOf rest

end

mutual

/-- The sites of an expression that stands at the given site, and of everything
inside it. -/
def Expr.sites (site : ContextSite) : Expr → Sites
  | .var note .. => [(note.id, site)]
  | .integer note _ => [(note.id, site)]
  | .boolean note _ => [(note.id, site)]
  | .call note _ args => (note.id, site) :: sitesOfParts args
  | .field note subject _ => (note.id, site) :: subject.sites .other

/-- The sites of expressions that are nested inside another one. -/
def sitesOfParts : List Expr → Sites
  | [] => []
  | expr :: rest => expr.sites .other ++ sitesOfParts rest

end

mutual

/-- The expressions of a statement, in the order written. -/
def Stmt.exprs : Stmt → List Expr
  | .block block => block.exprs
  | .declare _ _ value .. => partsOf value.toList
  | .assign _ target value => target.withParts ++ value.withParts
  | .expr _ inner => inner.withParts
  | .return _ value => partsOf value.toList
  | .branch _ condition yes none => condition.withParts ++ yes.exprs
  | .branch _ condition yes (some no) => condition.withParts ++ yes.exprs ++ no.exprs
  | .loop _ condition body => condition.withParts ++ body.exprs
  | .break _ | .continue _ => []
  | .spawn _ _ _ args => partsOf args

/-- The expressions of a block, in the order written. -/
def Block.exprs : Block → List Expr
  | .mk _ statements => exprsOf statements

/-- The expressions of statements, in the order written. -/
def exprsOf : List Stmt → List Expr
  | [] => []
  | statement :: rest => statement.exprs ++ exprsOf rest

end

/-- The sites of the value of a statement, if it has one. -/
def valueSites (site : ContextSite) : Option Expr → Sites
  | none => []
  | some value => value.sites site

mutual

/-- The sites of the expressions of a statement. -/
def Stmt.sites (resultBinding : Option BindingId) : Stmt → Sites
  | .block block => block.sites resultBinding
  | .declare _ _ value _ mutability _ =>
      valueSites (if mutability then .varInit else .letInit) value
  | .assign _ target value =>
      target.sites .other ++
        value.sites (if target.isResult resultBinding then .resultAssignment else .other)
  | .expr _ inner => inner.sites .other
  | .return _ value => valueSites .returnValue value
  | .branch _ condition yes none => condition.sites .other ++ yes.sites resultBinding
  | .branch _ condition yes (some no) =>
      condition.sites .other ++ yes.sites resultBinding ++ no.sites resultBinding
  | .loop _ condition body => condition.sites .other ++ body.sites resultBinding
  | .break _ | .continue _ => []
  | .spawn _ _ _ args => sitesOfParts args

/-- The sites of the expressions of a block. -/
def Block.sites (resultBinding : Option BindingId) : Block → Sites
  | .mk _ statements => sitesOf resultBinding statements

/-- The sites of the expressions of statements. -/
def sitesOf (resultBinding : Option BindingId) : List Stmt → Sites
  | [] => []
  | statement :: rest => statement.sites resultBinding ++ sitesOf resultBinding rest

end

/-- The sites of the expressions of a procedure. -/
def Procedure.sites (procedure : Procedure) : Sites :=
  procedure.body.sites procedure.resultBinding

end LifecycleHooks

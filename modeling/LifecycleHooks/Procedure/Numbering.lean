import LifecycleHooks.Procedure.Basic

/-!
# Numbering

The nodes of a procedure are numbered in the order in which they are written: a
node first, then what stands inside it from left to right.  Each function gives
the renumbered tree and the next free number.
-/

namespace LifecycleHooks

mutual

/-- Number an expression. -/
def Expr.number : Expr → (next : NodeId) → Expr × NodeId
  | .var note name binding, next => (.var { note with id := next } name binding, next + 1)
  | .integer note value, next => (.integer { note with id := next } value, next + 1)
  | .boolean note value, next => (.boolean { note with id := next } value, next + 1)
  | .call note callee args, next =>
      let (args, after) := numberExprs args (next + 1)
      (.call { note with id := next } callee args, after)
  | .field note subject name, next =>
      let (subject, after) := subject.number (next + 1)
      (.field { note with id := next } subject name, after)

/-- Number expressions from left to right. -/
def numberExprs : List Expr → (next : NodeId) → List Expr × NodeId
  | [], next => ([], next)
  | expr :: rest, next =>
      let (expr, between) := expr.number next
      let (rest, after) := numberExprs rest between
      (expr :: rest, after)

end

/-- Number an expression that may be missing. -/
def numberExpr? : Option Expr → (next : NodeId) → Option Expr × NodeId
  | none, next => (none, next)
  | some expr, next =>
      let (expr, after) := expr.number next
      (some expr, after)

mutual

/-- Number a statement. -/
def Stmt.number : Stmt → (next : NodeId) → Stmt × NodeId
  | .block block, next =>
      let (block, after) := block.number next
      (.block block, after)
  | .declare note name value type mutability binding, next =>
      let (value, after) := numberExpr? value (next + 1)
      (.declare { note with id := next } name value type mutability binding, after)
  | .assign note target value, next =>
      let (target, between) := target.number (next + 1)
      let (value, after) := value.number between
      (.assign { note with id := next } target value, after)
  | .expr note inner, next =>
      let (inner, after) := inner.number (next + 1)
      (.expr { note with id := next } inner, after)
  | .return note value, next =>
      let (value, after) := numberExpr? value (next + 1)
      (.return { note with id := next } value, after)
  | .branch note condition yes none, next =>
      let (condition, first) := condition.number (next + 1)
      let (yes, after) := yes.number first
      (.branch { note with id := next } condition yes none, after)
  | .branch note condition yes (some no), next =>
      let (condition, first) := condition.number (next + 1)
      let (yes, second) := yes.number first
      let (no, after) := no.number second
      (.branch { note with id := next } condition yes (some no), after)
  | .loop note condition body, next =>
      let (condition, first) := condition.number (next + 1)
      let (body, after) := body.number first
      (.loop { note with id := next } condition body, after)
  | .break note, next => (.break { note with id := next }, next + 1)
  | .continue note, next => (.continue { note with id := next }, next + 1)
  | .spawn note call callee args, next =>
      let (args, after) := numberExprs args (next + 2)
      (.spawn { note with id := next } { call with id := next + 1 } callee args, after)

/-- Number a block. -/
def Block.number : Block → (next : NodeId) → Block × NodeId
  | .mk note statements, next =>
      let (statements, after) := numberStmts statements (next + 1)
      (.mk { note with id := next } statements, after)

/-- Number statements in order. -/
def numberStmts : List Stmt → (next : NodeId) → List Stmt × NodeId
  | [], next => ([], next)
  | statement :: rest, next =>
      let (statement, between) := statement.number next
      let (rest, after) := numberStmts rest between
      (statement :: rest, after)

end

/-- Number parameters in order. -/
def numberParams : List Param → (next : NodeId) → List Param × NodeId
  | [], next => ([], next)
  | param :: rest, next =>
      let (rest, after) := numberParams rest (next + 1)
      ({ param with note := { param.note with id := next } } :: rest, after)

/-- Number a procedure: itself, its parameters and its body. -/
def Procedure.number (procedure : Procedure) (next : NodeId) : Procedure × NodeId :=
  let (params, between) := numberParams procedure.params (next + 1)
  let (body, after) := procedure.body.number between
  ({ procedure with
      note := { procedure.note with id := next }
      params := params
      body := body }, after)

end LifecycleHooks

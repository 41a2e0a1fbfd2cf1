import LifecycleHooks.Procedure.Numbering
import LifecycleHooks.Program.Declarations
import LifecycleHooks.Program.Signature

/-!
# Typed bodies

The body of a procedure is lowered to a tree in which names are bound and every
expression has its static type.  Each declaration gets a binding of its own, so
that locals which shadow each other stay apart.  Unknown names, fields and
procedures are reported and get the unknown type; a `break` or `continue` outside
of a loop is reported and dropped.  Assignments are not checked.
-/

namespace LifecycleHooks

/-- A local or a parameter in scope. -/
structure Binding where
  id : BindingId
  type : TypeId
deriving DecidableEq, Repr

/-- What changes while a body is lowered.  The scopes stand innermost first, and
in each the latest declaration stands first. -/
structure BodyState where
  declarations : Declarations
  nextBinding : BindingId := 1
  scopes : List (List (String × Binding)) := [[]]
  bindingTypes : BindingTypes := []
deriving Repr

/-- A computation on a body that can fail. -/
abbrev BodyM := Attempt BodyState

/-- What stays fixed while a body is lowered. -/
structure BodyContext where
  file : Option String
  typeVars : TypeVars
  signatures : List (String × Signature)
  /-- The number of bases that the look-up of a field may follow. -/
  fuel : Nat

namespace BodyM

/-- Run a computation on the declarations. -/
def onDeclarations {Result : Type} (action : DeclareM Result) : BodyM Result :=
  Attempt.onPart BodyState.declarations
    (fun declarations state => { state with declarations := declarations }) action

/-- Run a computation on the type table. -/
def onTable {Result : Type} (action : TableM Result) : BodyM Result :=
  onDeclarations (DeclareM.onTable action)

/-- Ask the type table a question. -/
def ask {Result : Type} (question : TypeTable → Except Fault Result) : BodyM Result := do
  Attempt.ofExcept (question (← get).declarations.table)

/-- Report an error at a place. -/
def report (context : BodyContext) (code : Code) (place : Position) (message : String) :
    BodyM Unit :=
  onDeclarations (DeclareM.report context.file code place message)

/-- Bind a name in the innermost scope. -/
def bind (name : String) (type : TypeId) : BodyM BindingId := do
  let id := (← get).nextBinding
  modify fun state =>
    { state with
      nextBinding := id + 1
      scopes :=
        match state.scopes with
        | [] => [[(name, ⟨id, type⟩)]]
        | scope :: outer => ((name, ⟨id, type⟩) :: scope) :: outer
      bindingTypes := state.bindingTypes ++ [(id, type)] }
  return id

/-- What a name stands for: its latest declaration in the innermost scope that
has one. -/
def lookup (name : String) : BodyM (Option Binding) := do
  return (← get).scopes.findSome? (·.lookup name)

/-- Run a computation in a new innermost scope. -/
def inScope {Result : Type} (action : BodyM Result) : BodyM Result := do
  modify fun state => { state with scopes := [] :: state.scopes }
  let result ← action
  modify fun state => { state with scopes := state.scopes.tail }
  return result

/-- The note of a node at a place. -/
def noteAt (context : BodyContext) (place : Position) : Note :=
  { span := place.toSpan context.file }

/-- The note of an expression at a place. -/
def exprNoteAt (context : BodyContext) (place : Position) (type : TypeId) : ExprNote :=
  { span := place.toSpan context.file, type := some type }

/-- The type of a call of a named procedure with the given arguments. -/
def typeCall (context : BodyContext) (place : Position) (callee : String)
    (args : List Expr) : BodyM TypeId := do
  match context.signatures.lookup callee with
  | none => do
      report context .unknownName place s!"unknown procedure '{callee}'"
      onTable TableM.unknown
  | some signature =>
      if args.length ≠ signature.params.length then do
        report context .arityMismatch place
          s!"'{callee}' expects {signature.params.length} argument(s), got {args.length}"
        onTable TableM.unknown
      else if signature.typeVars.isEmpty then
        return signature.result
      else do
        let types := (signature.params.zip args).filterMap fun (param, arg) =>
          arg.type.map fun type => (param, type)
        let mapping ← ask (·.matchArguments (types.map Prod.fst) (types.map Prod.snd))
        onTable (TableM.substitute mapping signature.result)

/-- The type of a field of a value.  Fields are read through references, pointers
and parameter modes. -/
def typeField (context : BodyContext) (place : Position) (subject : TypeId)
    (name : String) : BodyM TypeId := do
  let owner ← ask (·.valueType subject)
  match ← ask (·.get owner) with
  | .unknown => return owner
  | _ =>
      match ← onTable (TableM.fieldType? context.fuel owner name) with
      | some type => return type
      | none => do
          let spelling ← ask (·.spell owner)
          report context .unknownName place s!"type '{spelling}' has no field '{name}'"
          onTable TableM.unknown

mutual

/-- Lower an expression. -/
def lowerExpr (context : BodyContext) : Surface.Expr → BodyM Expr
  | .name place name => do
      match ← lookup name with
      | some binding =>
          return .var (exprNoteAt context place binding.type) name (some binding.id)
      | none => do
          report context .unknownName place s!"unknown name '{name}'"
          return .var (exprNoteAt context place (← onTable TableM.unknown)) name none
  | .integer place value => do
      return .integer (exprNoteAt context place (← onTable TableM.int)) value
  | .boolean place value => do
      return .boolean (exprNoteAt context place (← onTable TableM.bool)) value
  | .call place callee args => do
      let args ← lowerExprs context args
      let type ← typeCall context place callee args
      return .call (exprNoteAt context place type) callee args
  | .field place subject name => do
      let subject ← lowerExpr context subject
      match subject.type with
      | none => return .field { span := place.toSpan context.file } subject name
      | some owner => do
          let type ← typeField context place owner name
          return .field (exprNoteAt context place type) subject name

/-- Lower expressions from left to right. -/
def lowerExprs (context : BodyContext) : List Surface.Expr → BodyM (List Expr)
  | [] => return []
  | expr :: rest => do
      let expr ← lowerExpr context expr
      return expr :: (← lowerExprs context rest)

end

/-- Lower an expression that may be missing. -/
def lowerExpr? (context : BodyContext) : Option Surface.Expr → BodyM (Option Expr)
  | none => return none
  | some expr => return some (← lowerExpr context expr)

/-- Lower the declaration of a local.  Its type is the one that is spelled, or
else that of its value. -/
def lowerDeclaration (context : BodyContext) (place : Position) (name : String)
    (type : Option Surface.TypeExpr) (value : Option Surface.Expr) (mutability : Bool) :
    BodyM Stmt := do
  let value ← lowerExpr? context value
  let declared ← type.mapM fun spelled =>
    onDeclarations (DeclareM.resolveType context.file context.typeVars spelled)
  let type ← match declared.or (value.bind Expr.type) with
    | some type => pure type
    | none => do
        report context .unknownType place s!"cannot infer a type for '{name}'"
        onTable TableM.unknown
  let binding ← bind name type
  return .declare (noteAt context place) name value declared mutability (some binding)

/-- Lower a `break` or a `continue`.  Outside of a loop it is reported and left
out. -/
def lowerControl (context : BodyContext) (inLoop : Bool) (place : Position) (word : String)
    (control : Note → Stmt) : BodyM (Option Stmt) := do
  if inLoop then
    return some (control (noteAt context place))
  else do
    report context .loopControlOutsideLoop place s!"'{word}' outside of a loop"
    return none

mutual

/-- Lower a statement, unless it is left out. -/
def lowerStmt (context : BodyContext) (inLoop : Bool) : Surface.Stmt → BodyM (Option Stmt)
  | .declare place name type value mutability => do
      return some (← lowerDeclaration context place name type value mutability)
  | .assign place target value => do
      let target ← lowerExpr context target
      let value ← lowerExpr context value
      return some (.assign (noteAt context place) target value)
  | .expr place inner => do
      return some (.expr (noteAt context place) (← lowerExpr context inner))
  | .return place value => do
      return some (.return (noteAt context place) (← lowerExpr? context value))
  | .branch place condition yes none => do
      let condition ← lowerExpr context condition
      let yes ← lowerBlock context inLoop yes
      return some (.branch (noteAt context place) condition yes none)
  | .branch place condition yes (some no) => do
      let condition ← lowerExpr context condition
      let yes ← lowerBlock context inLoop yes
      let no ← lowerBlock context inLoop no
      return some (.branch (noteAt context place) condition yes (some no))
  | .loop place condition body => do
      let condition ← lowerExpr context condition
      let body ← lowerBlock context true body
      return some (.loop (noteAt context place) condition body)
  | .break place => lowerControl context inLoop place "break" .break
  | .continue place => lowerControl context inLoop place "continue" .continue
  | .block _ block => do
      return some (.block (← lowerBlock context inLoop block))
  | .spawn place operand => do
      match ← lowerExpr context operand with
      | .call note callee args => return some (.spawn (noteAt context place) note callee args)
      | _ => throw .spawnWithoutCall

/-- Lower a block in a scope of its own. -/
def lowerBlock (context : BodyContext) (inLoop : Bool) : Surface.Block → BodyM Block
  | .mk place statements => do
      let statements ← inScope (lowerStmts context inLoop statements)
      return .mk (noteAt context place) statements

/-- Lower statements in order. -/
def lowerStmts (context : BodyContext) (inLoop : Bool) :
    List Surface.Stmt → BodyM (List Stmt)
  | [] => return []
  | statement :: rest => do
      let first ← lowerStmt context inLoop statement
      let rest ← lowerStmts context inLoop rest
      return first.toList ++ rest

end

/-- Bind the parameters of a procedure. -/
def lowerParams (context : BodyContext) :
    List (Surface.Member × TypeId) → BodyM (List Param)
  | [] => return []
  | (param, type) :: rest => do
      let binding ← bind param.name type
      return ⟨noteAt context param.place, param.name, type, some binding⟩ ::
        (← lowerParams context rest)

/-- Lower a procedure and number its nodes from one.  A procedure that gives a
result has it bound as `result` next to its parameters. -/
def lowerProcedure (context : BodyContext) (proc : Surface.ProcDecl)
    (signature : Signature) : BodyM Procedure := do
  let params ← lowerParams context (proc.params.zip signature.params)
  let resultBinding ←
    if (← ask (·.get signature.result)).kind = .void then
      pure none
    else
      some <$> bind "result" signature.result
  let body ← lowerBlock context false proc.body
  let procedure : Procedure :=
    { note := noteAt context proc.place
      name := proc.name
      params := params
      result := signature.result
      body := body
      resultBinding := resultBinding }
  return (procedure.number 1).1

end BodyM
end LifecycleHooks

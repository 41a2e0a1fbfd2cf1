import LifecycleHooks.Fault
import LifecycleHooks.Procedure.Basic

/-!
# Scope graphs

A scope graph lists the scopes of a procedure, one for each reachable block, and
every edge along which control leaves scopes: at the end of a block, or at a
`return`, `break` or `continue`.  An edge tells which scopes it unwinds, innermost
first, how many locals of each were declared before it, and which local it hands
over to the caller.
-/

namespace LifecycleHooks

/-- The number of a scope within its procedure. -/
abbrev ScopeId := Int

/-- The number of an exit edge within its procedure. -/
abbrev EdgeId := Int

/-- The ways to leave a scope. -/
inductive ExitKind where
  | fallthrough
  | return
  | break
  | continue
deriving DecidableEq, Repr

namespace ExitKind

/-- All ways to leave a scope, in their fixed order. -/
def all : List ExitKind := [.fallthrough, .return, .break, .continue]

/-- The word for a way to leave a scope. -/
def word : ExitKind → String
  | .fallthrough => "fallthrough"
  | .return => "return"
  | .break => "break"
  | .continue => "continue"

end ExitKind

/-- A local that is declared inside a scope.  Its order counts the locals that
were declared before it in the same scope. -/
structure Local where
  binding : BindingId
  name : String
  type : TypeId
  order : Nat
  declaration : NodeId
  span : Span
deriving DecidableEq, Repr

/-- A way for control to leave scopes, anchored at the statement that leaves or at
the block that ends. -/
structure ExitEdge where
  id : EdgeId
  kind : ExitKind
  origin : ScopeId
  unwound : List ScopeId
  anchor : NodeId
  /-- How many locals of each unwound scope are live. -/
  live : List (ScopeId × Int)
  /-- The locals that are handed over instead of being destroyed. -/
  consumed : List BindingId := []
  span : Span
deriving DecidableEq, Repr

/-- A lexical scope with the edges that leave it. -/
structure Scope where
  id : ScopeId
  parent : Option ScopeId
  block : NodeId
  isLoopBody : Bool
  locals : List Local
  /-- The anchors of all that leaves the scope. -/
  exitPoints : List NodeId := []
  exitEdges : List EdgeId := []
  fallsThrough : Bool
deriving DecidableEq, Repr

/-- The scopes and the exit edges of a procedure, each in the order of their
numbers. -/
structure ScopeGraph where
  procedure : String
  root : ScopeId
  scopes : List Scope
  edges : List ExitEdge
deriving DecidableEq, Repr

namespace ScopeGraph

/-- The scope with the given number. -/
def scope? (graph : ScopeGraph) (id : ScopeId) : Option Scope :=
  graph.scopes.find? (·.id = id)

/-- The edge with the given number. -/
def edge? (graph : ScopeGraph) (id : EdgeId) : Option ExitEdge :=
  graph.edges.find? (·.id = id)

/-- The scope with the given number, which has to be there. -/
def scope (graph : ScopeGraph) (id : ScopeId) : Except Fault Scope :=
  match graph.scope? id with
  | some scope => .ok scope
  | none => .error (.unknownId id)

/-- The edge with the given number, which has to be there. -/
def edge (graph : ScopeGraph) (id : EdgeId) : Except Fault ExitEdge :=
  match graph.edge? id with
  | some edge => .ok edge
  | none => .error (.unknownId id)

/-- A scope and at most `fuel` scopes around it, innermost first. -/
def chainWithin (graph : ScopeGraph) : (fuel : Nat) → ScopeId → Except Fault (List ScopeId)
  | 0, _ => .error .exhausted
  | fuel + 1, id => do
      match (← graph.scope id).parent with
      | some parent => return id :: (← graph.chainWithin fuel parent)
      | none => return [id]

/-- A scope and all scopes around it, innermost first.  A chain that does not come
back to itself is no longer than the list of scopes. -/
def chain (graph : ScopeGraph) (id : ScopeId) : Except Fault (List ScopeId) :=
  graph.chainWithin (graph.scopes.length + 1) id

end ScopeGraph

/-- An enclosing scope while its block is walked: its number, whether it is the
body of a loop, and the locals declared so far. -/
structure Frame where
  scope : ScopeId
  isLoopBody : Bool
  locals : List Local
deriving DecidableEq, Repr

namespace Frame

/-- The local that a variable stands for among the locals of a scope, the latest
first.  A bound variable is looked up by its binding, another one by its name. -/
def findLocal (frame : Frame) (name : String) (binding : Option BindingId) : Option Local :=
  frame.locals.reverse.find? fun candidate =>
    match binding with
    | some id => candidate.binding = id
    | none => candidate.name = name

end Frame

/-- The numbers that the next scope, edge and unbound local get.  Locals without a
binding are numbered downwards from minus one. -/
structure NextIds where
  scope : ScopeId := 0
  edge : EdgeId := 0
  unbound : BindingId := -1
deriving DecidableEq, Repr

/-- What a walk over a part of a body found: whether control can continue behind
it, the locals it declares in the scope it stands in, and the scopes and edges. -/
structure Walk where
  continues : Bool := true
  locals : List Local := []
  scopes : List Scope := []
  edges : List ExitEdge := []
  next : NextIds
deriving DecidableEq, Repr

namespace Walk

/-- Number a new edge that unwinds the given frames, and add it to a walk. -/
def leave (next : NextIds) (kind : ExitKind) (origin : ScopeId) (unwound : List Frame)
    (consumed : List BindingId) (note : Note) : ExitEdge × NextIds :=
  ({ id := next.edge
     kind := kind
     origin := origin
     unwound := unwound.map Frame.scope
     anchor := note.id
     live := unwound.map fun frame => (frame.scope, frame.locals.length)
     consumed := consumed
     span := note.span }, { next with edge := next.edge + 1 })

/-- The local that a `return` of the given value hands over. -/
def consumedBy (frames : List Frame) : Option Expr → List BindingId
  | some (.var _ name binding) =>
      (frames.findSome? (·.findLocal name binding)).toList.map Local.binding
  | _ => []

/-- The frames up to and including the innermost loop body, if there is one. -/
def untilLoop? : List Frame → Option (List Frame)
  | [] => none
  | frame :: outer =>
      if frame.isLoopBody then some [frame] else (untilLoop? outer).map (frame :: ·)

/-- The type of a declared local: that of its binding, or else the spelled one. -/
def localType (bindingTypes : BindingTypes) (type : Option TypeId)
    (binding : Option BindingId) : Option TypeId :=
  (binding.bind fun id => bindingTypes.lookup id).or type

/-- The walk over a declaration in a scope that has the given number of locals.
One without a type declares nothing. -/
def ofDeclaration (bindingTypes : BindingTypes) (next : NextIds) (order : Nat) (note : Note)
    (name : String) (type : Option TypeId) (binding : Option BindingId) : Walk :=
  match localType bindingTypes type binding, binding with
  | none, _ => { next := next }
  | some type, some id =>
      { locals := [⟨id, name, type, order, note.id, note.span⟩], next := next }
  | some type, none =>
      { locals := [⟨next.unbound, name, type, order, note.id, note.span⟩]
        next := { next with unbound := next.unbound - 1 } }

/-- The walk over a statement that leaves the given frames. -/
def ofExit (next : NextIds) (kind : ExitKind) (origin : ScopeId) (unwound : List Frame)
    (consumed : List BindingId) (note : Note) : Walk :=
  let (edge, next) := leave next kind origin unwound consumed note
  { continues := false, edges := [edge], next := next }

/-- The walk over a statement that leaves the innermost loop. -/
def ofLoopExit (procedure : String) (next : NextIds) (kind : ExitKind) (scope : ScopeId)
    (frames : List Frame) (note : Note) : Except Fault Walk :=
  match untilLoop? frames with
  | some unwound => .ok (ofExit next kind scope unwound [] note)
  | none => .error (.loopControlOutsideLoop kind.word procedure)

end Walk

/-- What stays fixed while a body is walked. -/
structure WalkContext where
  procedure : String
  bindingTypes : BindingTypes

mutual

/-- Walk over a statement inside a scope and the frames around it. -/
def Stmt.walk (context : WalkContext) (scope : Frame) (outer : List Frame) :
    Stmt → NextIds → Except Fault Walk
  | .declare note name _ type _ binding, next =>
      .ok (.ofDeclaration context.bindingTypes next scope.locals.length note name type binding)
  | .return note value, next =>
      let frames := scope :: outer
      .ok (.ofExit next .return scope.scope frames (Walk.consumedBy frames value) note)
  | .break note, next =>
      Walk.ofLoopExit context.procedure next .break scope.scope (scope :: outer) note
  | .continue note, next =>
      Walk.ofLoopExit context.procedure next .continue scope.scope (scope :: outer) note
  | .block block, next => block.walk context (scope :: outer) false next
  | .branch _ _ yes none, next => do
      let yes ← yes.walk context (scope :: outer) false next
      return { yes with continues := true }
  | .branch _ _ yes (some no), next => do
      let yes ← yes.walk context (scope :: outer) false next
      let no ← no.walk context (scope :: outer) false yes.next
      return { continues := yes.continues || no.continues
               scopes := yes.scopes ++ no.scopes
               edges := yes.edges ++ no.edges
               next := no.next }
  | .loop _ _ body, next => do
      let body ← body.walk context (scope :: outer) true next
      return { body with continues := true }
  | .assign .., next | .expr .., next | .spawn .., next => .ok { next := next }

/-- Walk over a block, which is a scope of its own inside the given frames.  When
its end can be reached it has an edge of its own for that. -/
def Block.walk (context : WalkContext) (outer : List Frame) (isLoopBody : Bool) :
    Block → NextIds → Except Fault Walk
  | .mk note statements, next => do
      let frame : Frame := ⟨next.scope, isLoopBody, []⟩
      let inner ← walkStmts context frame outer statements
        { next with scope := next.scope + 1 }
      let scope : Scope :=
        { id := next.scope
          parent := (outer.head?).map Frame.scope
          block := note.id
          isLoopBody := isLoopBody
          locals := inner.locals
          fallsThrough := inner.continues }
      if inner.continues then
        let frame := { frame with locals := inner.locals }
        let (edge, next) := Walk.leave inner.next .fallthrough frame.scope [frame] [] note
        return { continues := true
                 scopes := scope :: inner.scopes
                 edges := inner.edges ++ [edge]
                 next := next }
      else
        return { continues := false
                 scopes := scope :: inner.scopes
                 edges := inner.edges
                 next := inner.next }

/-- Walk over the statements of a scope up to the first that control does not
continue behind. -/
def walkStmts (context : WalkContext) (scope : Frame) (outer : List Frame) :
    List Stmt → NextIds → Except Fault Walk
  | [], next => .ok { next := next }
  | statement :: rest, next => do
      let first ← statement.walk context scope outer next
      if first.continues then
        let scope := { scope with locals := scope.locals ++ first.locals }
        let rest ← walkStmts context scope outer rest first.next
        return { continues := rest.continues
                 locals := first.locals ++ rest.locals
                 scopes := first.scopes ++ rest.scopes
                 edges := first.edges ++ rest.edges
                 next := rest.next }
      else
        return first

end

/-- Enter the edges that leave a scope in its lists. -/
def Scope.withEdges (edges : List ExitEdge) (scope : Scope) : Scope :=
  let leaving := edges.filter fun edge => scope.id ∈ edge.unwound
  { scope with
    exitPoints := leaving.map ExitEdge.anchor
    exitEdges := leaving.map ExitEdge.id }

/-- The scope graph of a procedure. -/
def Procedure.scopeGraph (procedure : Procedure) (bindingTypes : BindingTypes) :
    Except Fault ScopeGraph := do
  let walk ← procedure.body.walk ⟨procedure.name, bindingTypes⟩ [] false {}
  return { procedure := procedure.name
           root := 0
           scopes := walk.scopes.map (Scope.withEdges walk.edges)
           edges := walk.edges }

end LifecycleHooks

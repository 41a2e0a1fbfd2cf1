import LifecycleHooks.Lifting.CallPlan
import LifecycleHooks.Scope.Graph

/-!
# Exit schedules

On every exit edge the live locals whose destruction runs a hook are destroyed:
scope by scope from the innermost, in each the latest declared first, leaving out
what the edge hands over.  A graph is scheduled only when its edges are complete:
every exit point has an edge, a block whose end can be reached has an edge for
that, and each edge unwinds a chain of scopes that all list it.
-/

namespace LifecycleHooks

/-- The destruction of a local on an exit edge. -/
structure ScheduledDestroy where
  declared : Local
  operation : Operation
  plan : List CallNode
deriving Repr

/-- The destructions on each exit edge of a procedure. -/
structure ExitSchedule where
  graph : ScopeGraph
  byEdge : List (ExitEdge × List ScheduledDestroy)
deriving Repr

namespace ExitSchedule

/-- The destructions on an edge. -/
def onEdge (schedule : ExitSchedule) (id : EdgeId) : List ScheduledDestroy :=
  match schedule.byEdge.find? (·.1.id = id) with
  | some (_, destroys) => destroys
  | none => []

/-- The names of the locals that are destroyed on an edge, in order. -/
def destroyOrder (schedule : ExitSchedule) (id : EdgeId) : List String :=
  (schedule.onEdge id).map (·.declared.name)

/-- The destructions at a statement or at the end of a block. -/
def atAnchor (schedule : ExitSchedule) (anchor : NodeId) : List ScheduledDestroy :=
  (schedule.byEdge.filter (·.1.anchor = anchor)).flatMap Prod.snd

/-- The edges of a kind. -/
def edgesOfKind (schedule : ExitSchedule) (kind : ExitKind) : List ExitEdge :=
  schedule.graph.edges.filter (·.kind = kind)

end ExitSchedule

/-- The first items of a list.  A negative count leaves out that many at the
end. -/
def firstItems {α : Type} (count : Int) (items : List α) : List α :=
  if 0 ≤ count then items.take count.toNat else items.take (items.length - count.natAbs)

namespace ScopeGraph

/-- Fail with a defect of a graph unless a condition holds. -/
def demand (graph : ScopeGraph) (condition : Bool) (defect : ExitDefect) : Except Fault Unit :=
  if condition then .ok () else .error (.missingExitEdge graph.procedure defect)

/-- Check the edges that leave a scope: they are known, every exit point has one,
and so has the end of the block if it can be reached. -/
def verifyScope (graph : ScopeGraph) (scope : Scope) : Except Fault Unit := do
  scope.exitEdges.forM fun id =>
    graph.demand (graph.edge? id).isSome (.unknownEdge scope.id id)
  let leaving := scope.exitEdges.filterMap graph.edge?
  scope.exitPoints.forM fun anchor =>
    graph.demand (leaving.any fun edge => edge.anchor = anchor && scope.id ∈ edge.unwound)
      (.pointWithoutEdge scope.id anchor)
  graph.demand
    (!scope.fallsThrough ||
      leaving.any fun edge => edge.kind = .fallthrough && edge.origin = scope.id)
    (.noFallthroughEdge scope.id)

/-- Check the scopes that an edge unwinds: they form a chain from its origin
outwards, and each lists the edge. -/
def verifyEdge (graph : ScopeGraph) (edge : ExitEdge) : Except Fault Unit := do
  let chain ← graph.chain edge.origin
  graph.demand (edge.unwound = chain.take edge.unwound.length) (.brokenChain edge.id)
  edge.unwound.forM fun id => do
    let scope ← graph.scope id
    graph.demand (edge.id ∈ scope.exitEdges) (.notEnumerated edge.id id)

/-- Check that every way out of every scope is an edge. -/
def verify (graph : ScopeGraph) : Except Fault Unit := do
  graph.scopes.forM graph.verifyScope
  graph.edges.forM graph.verifyEdge

/-- The locals of a scope that are live on an edge, the latest declared first. -/
def liveLocals (graph : ScopeGraph) (edge : ExitEdge) (id : ScopeId) :
    Except Fault (List Local) := do
  let scope ← graph.scope id
  return (firstItems ((edge.live.lookup id).getD 0) scope.locals).reverse

end ScopeGraph

namespace ResolveM

/-- The destruction of a live local, if it runs a hook. -/
def scheduleLocal (hooks : Registry) (fuel : Nat) (declared : Local) :
    ResolveM (Option ScheduledDestroy) := do
  let operation ← resolve hooks fuel declared.type .destroy
  if operation.isBuiltIn then
    return none
  else do
    let plan ← expand hooks fuel declared.type .destroy declared.name
    return some ⟨declared, operation, plan⟩

/-- The destructions on an edge. -/
def scheduleEdge (hooks : Registry) (fuel : Nat) (graph : ScopeGraph) (edge : ExitEdge) :
    ResolveM (List ScheduledDestroy) := do
  let parts ← edge.unwound.mapM fun id => do
    let live ← Attempt.ofExcept (graph.liveLocals edge id)
    let kept := live.filter fun declared => declared.binding ∉ edge.consumed
    kept.filterMapM (scheduleLocal hooks fuel)
  return parts.flatten

/-- The exit schedule of a graph whose edges are complete. -/
def schedule (hooks : Registry) (fuel : Nat) (graph : ScopeGraph) : ResolveM ExitSchedule := do
  Attempt.ofExcept graph.verify
  let byEdge ← graph.edges.mapM fun edge => do
    return (edge, ← scheduleEdge hooks fuel graph edge)
  return ⟨graph, byEdge⟩

end ResolveM
end LifecycleHooks

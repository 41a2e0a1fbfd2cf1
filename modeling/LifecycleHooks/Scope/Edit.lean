import LifecycleHooks.Scope.Graph

/-!
# Edits of scope graphs

A scope graph is redundant: each edge names the scopes it unwinds, and each scope
lists its exit points and its edges.  Edits change one side of it at a time, so
that checks of a graph can be tried on graphs that no procedure has.
-/

namespace LifecycleHooks

/-- A change to a scope graph. -/
inductive GraphEdit where
  | deleteEdge (edge : EdgeId)
  | addExitPoint (scope : ScopeId) (anchor : NodeId)
  | listEdge (scope : ScopeId) (edge : EdgeId)
  | unlistEdge (scope : ScopeId) (edge : EdgeId)
  | setFallsThrough (scope : ScopeId) (falls : Bool)
  | setUnwound (edge : EdgeId) (unwound : List ScopeId)
  | setKind (edge : EdgeId) (kind : ExitKind)
  | setOrigin (edge : EdgeId) (origin : ScopeId)
  | setAnchor (edge : EdgeId) (anchor : NodeId)
  | setLive (edge : EdgeId) (live : List (ScopeId × Int))
  | setConsumed (edge : EdgeId) (consumed : List BindingId)
deriving DecidableEq, Repr

namespace ScopeGraph

/-- Change the scope with the given number. -/
def updateScope (graph : ScopeGraph) (id : ScopeId) (change : Scope → Scope) :
    Except Fault ScopeGraph :=
  match graph.scope id with
  | .ok _ =>
      .ok { graph with
        scopes := graph.scopes.map fun scope => if scope.id = id then change scope else scope }
  | .error fault => .error fault

/-- Change the edge with the given number. -/
def updateEdge (graph : ScopeGraph) (id : EdgeId) (change : ExitEdge → ExitEdge) :
    Except Fault ScopeGraph :=
  match graph.edge id with
  | .ok _ =>
      .ok { graph with
        edges := graph.edges.map fun edge => if edge.id = id then change edge else edge }
  | .error fault => .error fault

/-- Write counts one after the other: a later count for the same scope replaces
the earlier one in its place. -/
def mergeLive (live : List (ScopeId × Int)) : List (ScopeId × Int) :=
  live.foldl
    (fun merged (scope, count) =>
      if merged.any (·.1 = scope) then
        merged.map fun entry => if entry.1 = scope then (scope, count) else entry
      else
        merged ++ [(scope, count)])
    []

/-- Apply one edit. -/
def edit (graph : ScopeGraph) : GraphEdit → Except Fault ScopeGraph
  | .deleteEdge id =>
      match graph.edge id with
      | .ok _ => .ok { graph with edges := graph.edges.filter (·.id ≠ id) }
      | .error fault => .error fault
  | .addExitPoint id anchor =>
      graph.updateScope id fun scope =>
        { scope with exitPoints := scope.exitPoints ++ [anchor] }
  | .listEdge id edge =>
      graph.updateScope id fun scope => { scope with exitEdges := scope.exitEdges ++ [edge] }
  | .unlistEdge id edge => do
      if edge ∈ (← graph.scope id).exitEdges then
        graph.updateScope id fun scope => { scope with exitEdges := scope.exitEdges.erase edge }
      else
        throw .edgeNotListed
  | .setFallsThrough id falls =>
      graph.updateScope id fun scope => { scope with fallsThrough := falls }
  | .setUnwound id unwound => graph.updateEdge id fun edge => { edge with unwound := unwound }
  | .setKind id kind => graph.updateEdge id fun edge => { edge with kind := kind }
  | .setOrigin id origin => graph.updateEdge id fun edge => { edge with origin := origin }
  | .setAnchor id anchor => graph.updateEdge id fun edge => { edge with anchor := anchor }
  | .setLive id live => graph.updateEdge id fun edge => { edge with live := mergeLive live }
  | .setConsumed id consumed =>
      graph.updateEdge id fun edge => { edge with consumed := consumed.eraseDups }

/-- Apply edits in order.  The graph is given as it was left, with the fault of the
first edit that failed. -/
def editAll (graph : ScopeGraph) : List GraphEdit → ScopeGraph × Option Fault
  | [] => (graph, none)
  | first :: rest =>
      match graph.edit first with
      | .ok edited => edited.editAll rest
      | .error fault => (graph, some fault)

end ScopeGraph
end LifecycleHooks

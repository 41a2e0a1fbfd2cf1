import LifecycleHooks.Proofs.Scope.Walk
import LifecycleHooks.Scope.Exit

/-!
# Complete scope graphs

The scope graph of a body whose names are bound is complete: every scope lists the edges
that unwind it, a scope whose end can be reached has an edge for that, and each edge
unwinds a chain of scopes.  So the check of the graph never fails.
-/

namespace LifecycleHooks

/-- In a list without repeated keys an entry is found by its key. -/
theorem find?_key {Entry Key : Type} [DecidableEq Key] (key : Entry → Key)
    {entries : List Entry} (distinct : (entries.map key).Nodup) {entry : Entry}
    (member : entry ∈ entries) : (entries.find? fun other => key other = key entry) = some entry := by
  induction entries with
  | nil => simp at member
  | cons other entries ih =>
      rw [List.map_cons, List.nodup_cons] at distinct
      rcases List.mem_cons.mp member with rfl | behind
      · simp
      · have differ : key other ≠ key entry := by
          intro same
          exact distinct.1 (same ▸ List.mem_map_of_mem behind)
        rw [List.find?_cons_of_neg (by simpa using differ)]
        exact ih distinct.2 behind

/-- The frames that a `break` or `continue` unwinds are the innermost ones. -/
theorem untilLoop?_prefix {frames unwound : List Frame}
    (found : Walk.untilLoop? frames = some unwound) :
    unwound.head? = frames.head? ∧ ∃ rest, frames = unwound ++ rest := by
  induction frames generalizing unwound with
  | nil => simp [Walk.untilLoop?] at found
  | cons frame outer ih =>
      unfold Walk.untilLoop? at found
      split at found
      · obtain rfl := Option.some.inj found
        exact ⟨rfl, outer, rfl⟩
      · obtain ⟨inner, foundInner, rfl⟩ := Option.map_eq_some_iff.mp found
        obtain ⟨-, rest, rfl⟩ := ih foundInner
        exact ⟨rfl, rest, rfl⟩

namespace ScopeGraph

/-- Each scope is the parent of the one before it, up to the outermost one. -/
def Chains (graph : ScopeGraph) : List ScopeId → Prop
  | [] => True
  | id :: outer => (graph.scope? id).map Scope.parent = some outer.head? ∧ graph.Chains outer

/-- A chain of different scopes that were numbered before the next one. -/
structure Encloses (graph : ScopeGraph) (next : ScopeId) (ids : List ScopeId) : Prop where
  chain : graph.Chains ids
  distinct : ids.Nodup
  before : ∀ id ∈ ids, id < next

/-- An edge unwinds the innermost scopes of a chain of different ones. -/
def Unwinds (graph : ScopeGraph) (edge : ExitEdge) : Prop :=
  edge.unwound.head? = some edge.origin ∧
    ∃ rest, graph.Chains (edge.unwound ++ rest) ∧ (edge.unwound ++ rest).Nodup

/-- A scope has an edge for its end. -/
def EndsAt (edges : List ExitEdge) (scope : Scope) : Prop :=
  ∃ edge ∈ edges, edge.kind = .fallthrough ∧ edge.origin = scope.id ∧ scope.id ∈ edge.unwound

theorem EndsAt.mono {edges more : List ExitEdge} {scope : Scope} (endsAt : EndsAt edges scope)
    (inside : edges ⊆ more) : EndsAt more scope := by
  obtain ⟨edge, member, kind⟩ := endsAt
  exact ⟨edge, inside member, kind⟩

/-- The scopes and edges of a graph are numbered apart, every scope lists the edges that
unwind it, one whose end can be reached has an edge for that, and each edge unwinds a
chain of scopes. -/
structure Complete (graph : ScopeGraph) : Prop where
  scopes : (graph.scopes.map Scope.id).Nodup
  edges : (graph.edges.map ExitEdge.id).Nodup
  listed : ∀ scope ∈ graph.scopes, scope = scope.withEdges graph.edges
  ends : ∀ scope ∈ graph.scopes, scope.fallsThrough = true → EndsAt graph.edges scope
  unwinds : ∀ edge ∈ graph.edges, graph.Unwinds edge

theorem Encloses.later {graph : ScopeGraph} {next after : ScopeId} {ids : List ScopeId}
    (encloses : graph.Encloses next ids) (onwards : next ≤ after) : graph.Encloses after ids :=
  ⟨encloses.chain, encloses.distinct,
    fun id member => Int.lt_of_lt_of_le (encloses.before id member) onwards⟩

/-- A block that is entered gets a scope inside of the others. -/
theorem Encloses.enter {graph : ScopeGraph} {outer : List Frame} {isLoopBody : Bool}
    {id : ScopeId} {note : Note} {inner : Walk}
    (encloses : graph.Encloses id (outer.map Frame.scope))
    (entered : graph.scope? (inner.enclose outer isLoopBody id note).id =
      some ((inner.enclose outer isLoopBody id note).withEdges graph.edges)) :
    graph.Encloses (id + 1) (id :: outer.map Frame.scope) where
  chain := by
    change graph.scope? id = _ at entered
    refine ⟨?_, encloses.chain⟩
    rw [entered]
    simp [Scope.withEdges, Walk.enclose]
  distinct := List.nodup_cons.mpr
    ⟨fun member => Int.lt_irrefl id (encloses.before id member), encloses.distinct⟩
  before other member := by
    rcases List.mem_cons.mp member with rfl | outside
    · exact Int.lt_add_one_of_le (Int.le_refl _)
    · exact Int.lt_add_one_of_le (Int.le_of_lt (encloses.before other outside))

end ScopeGraph

open ScopeGraph

namespace Walks

variable {context : WalkContext} {frames : List Frame} {next : NextIds} {fragment : Fragment}
  {walk : Walk}

/-- Every block whose end can be reached has an edge for that. -/
theorem ends (walks : Walks context frames next fragment walk) :
    ∀ scope ∈ walk.scopes, scope.fallsThrough = true → EndsAt walk.edges scope := by
  induction walks with
  | declare => simp
  | assign => simp
  | expr => simp
  | spawn => simp
  | «return» => simp [Walk.ofExit]
  | «break» => simp [Walk.ofExit]
  | «continue» => simp [Walk.ofExit]
  | block inside ih => exact ih
  | branch note condition inside ih => exact ih
  | branchElse note condition ifYes ifNo yesIH noIH =>
      intro scope member falls
      rcases List.mem_append.mp member with early | late
      · exact (yesIH scope early falls).mono (List.subset_append_left _ _)
      · exact (noIH scope late falls).mono (List.subset_append_right _ _)
  | loop note condition inside ih => exact ih
  | blockEnd note inside continues ih =>
      intro scope member falls
      rcases List.mem_cons.mp member with rfl | inner
      · exact ⟨_, List.mem_append_right _ (List.mem_singleton.mpr rfl), rfl, rfl,
          List.mem_singleton.mpr rfl⟩
      · exact (ih scope inner falls).mono (List.subset_append_left _ _)
  | blockExit note inside ends ih =>
      intro scope member falls
      rcases List.mem_cons.mp member with rfl | inner
      · cases ends.symm.trans falls
      · exact ih scope inner falls
  | nil => simp
  | next before continues behind beforeIH behindIH =>
      intro scope member falls
      rcases List.mem_append.mp member with early | late
      · exact (beforeIH scope early falls).mono (List.subset_append_left _ _)
      · exact (behindIH scope late falls).mono (List.subset_append_right _ _)
  | stop statements before ends ih => exact ih

/-- An exit unwinds scopes that stand in each other. -/
theorem exit_unwinds {graph : ScopeGraph} {scope : Frame} {outer unwound : List Frame}
    {kind : ExitKind} {consumed : List BindingId} {note : Note}
    (encloses : graph.Encloses next.scope ((scope :: outer).map Frame.scope))
    (innermost : unwound.head? = some scope) (inside : ∃ rest, scope :: outer = unwound ++ rest) :
    ∀ edge ∈ (Walk.ofExit next kind scope.scope unwound consumed note).edges,
      graph.Unwinds edge := by
  intro edge member
  obtain rfl := List.mem_singleton.mp member
  obtain ⟨rest, frames⟩ := inside
  rw [frames, List.map_append] at encloses
  exact ⟨by simp [innermost], _, encloses.chain, encloses.distinct⟩

/-- Every edge of a walk unwinds scopes that stand in each other. -/
theorem unwinds {graph : ScopeGraph} (walks : Walks context frames next fragment walk)
    (entered : ∀ scope ∈ walk.scopes, graph.scope? scope.id = some (scope.withEdges graph.edges))
    (encloses : graph.Encloses next.scope (frames.map Frame.scope)) :
    ∀ edge ∈ walk.edges, graph.Unwinds edge := by
  induction walks with
  | declare => simp
  | assign => simp
  | expr => simp
  | spawn => simp
  | «return» => exact exit_unwinds encloses rfl ⟨[], by simp⟩
  | «break» next note found =>
      obtain ⟨innermost, inside⟩ := untilLoop?_prefix found
      exact exit_unwinds encloses innermost inside
  | «continue» next note found =>
      obtain ⟨innermost, inside⟩ := untilLoop?_prefix found
      exact exit_unwinds encloses innermost inside
  | block inside ih => exact ih entered encloses
  | branch note condition inside ih => exact ih entered encloses
  | branchElse note condition ifYes ifNo yesIH noIH =>
      intro edge member
      rcases List.mem_append.mp member with early | late
      · exact yesIH (fun scope member => entered scope (List.mem_append_left _ member))
          encloses edge early
      · exact noIH (fun scope member => entered scope (List.mem_append_right _ member))
          (encloses.later ifYes.numbers.scopes.bounds) edge late
  | loop note condition inside ih => exact ih entered encloses
  | blockEnd note inside continues ih =>
      have around := encloses.enter (entered _ List.mem_cons_self)
      intro edge member
      rcases List.mem_append.mp member with inner | last
      · exact ih (fun scope member => entered scope (List.mem_cons_of_mem _ member)) around edge inner
      · obtain rfl := List.mem_singleton.mp last
        exact ⟨rfl, _, around.chain, around.distinct⟩
  | blockExit note inside ends ih =>
      have around := encloses.enter (entered _ List.mem_cons_self)
      exact ih (fun scope member => entered scope (List.mem_cons_of_mem _ member)) around
  | nil => simp
  | next before continues behind beforeIH behindIH =>
      intro edge member
      rcases List.mem_append.mp member with early | late
      · exact beforeIH (fun scope member => entered scope (List.mem_append_left _ member))
          encloses edge early
      · exact behindIH (fun scope member => entered scope (List.mem_append_right _ member))
          (encloses.later before.numbers.scopes.bounds) edge late
  | stop statements before ends ih => exact ih entered encloses

end Walks
namespace ScopeGraph

variable {graph : ScopeGraph}

/-- A chain of scopes is found from the innermost one with enough steps. -/
theorem chainWithin_of_chains {id : ScopeId} {outer : List ScopeId} {fuel : Nat}
    (chain : graph.Chains (id :: outer)) (enough : outer.length < fuel) :
    graph.chainWithin fuel id = .ok (id :: outer) := by
  induction fuel generalizing id outer with
  | zero => omega
  | succ fuel ih =>
      obtain ⟨scope, found, parent⟩ := Option.map_eq_some_iff.mp chain.1
      have known : graph.scope id = .ok scope := by
        unfold ScopeGraph.scope
        rw [found]
      cases outer with
      | nil =>
          simp only [chainWithin, known, bind, Except.bind, parent, List.head?_nil]
          rfl
      | cons next outer =>
          have rest := ih chain.2 (by simpa using enough)
          simp only [chainWithin, known, bind, Except.bind, parent, List.head?_cons, rest]
          rfl

theorem Chains.scope? {ids : List ScopeId} (chain : graph.Chains ids) :
    ∀ id ∈ ids, ∃ scope, graph.scope? id = some scope := by
  induction ids with
  | nil => simp
  | cons first ids ih =>
      intro id member
      rcases List.mem_cons.mp member with rfl | outside
      · obtain ⟨scope, found, -⟩ := Option.map_eq_some_iff.mp chain.1
        exact ⟨scope, found⟩
      · exact ih chain.2 id outside

theorem scope?_eq_some {id : ScopeId} {scope : Scope} (found : graph.scope? id = some scope) :
    scope ∈ graph.scopes ∧ scope.id = id :=
  ⟨List.mem_of_find?_eq_some found, by simpa using List.find?_some found⟩

/-- A chain of different scopes is no longer than the list of scopes. -/
theorem Chains.length_le {ids : List ScopeId} (chain : graph.Chains ids) (distinct : ids.Nodup) :
    ids.length ≤ graph.scopes.length := by
  have inside : ids ⊆ graph.scopes.map Scope.id := by
    intro id member
    obtain ⟨scope, found⟩ := chain.scope? id member
    obtain ⟨listed, rfl⟩ := scope?_eq_some found
    exact List.mem_map_of_mem listed
  simpa using (distinct.subperm inside).length_le

theorem both_ok {first second : Except Fault PUnit} (before : first = .ok ())
    (behind : second = .ok ()) : (do first; second) = .ok () := by
  rw [before, behind]
  rfl

/-- A check of all items succeeds when it succeeds for each. -/
theorem forM_ok {Item : Type} {items : List Item} {check : Item → Except Fault PUnit}
    (each : ∀ item ∈ items, check item = .ok ()) : items.forM check = .ok () := by
  induction items with
  | nil => rfl
  | cons item items ih =>
      exact both_ok (each item List.mem_cons_self) (ih fun other member => each other (by simp [member]))

@[simp]
theorem demand_true (defect : ExitDefect) : graph.demand true defect = .ok () :=
  rfl

/-- The edges that a scope of a complete graph lists are those that unwind it. -/
theorem Complete.mem_exitEdges (complete : graph.Complete) {scope : Scope}
    (member : scope ∈ graph.scopes) {edge : ExitEdge} (known : edge ∈ graph.edges)
    (unwound : scope.id ∈ edge.unwound) : edge.id ∈ scope.exitEdges := by
  rw [complete.listed scope member]
  exact List.mem_map_of_mem (by simp [known, unwound])

theorem Complete.edge? (complete : graph.Complete) {edge : ExitEdge}
    (known : edge ∈ graph.edges) : graph.edge? edge.id = some edge :=
  find?_key ExitEdge.id complete.edges known

/-- The edges that a scope lists are found again by their numbers. -/
theorem Complete.leaving (complete : graph.Complete) {scope : Scope}
    (member : scope ∈ graph.scopes) :
    scope.exitEdges.filterMap graph.edge? =
      graph.edges.filter fun edge => scope.id ∈ edge.unwound := by
  have found : ∀ edges ⊆ graph.edges, (edges.map ExitEdge.id).filterMap graph.edge? = edges := by
    intro edges known
    induction edges with
    | nil => rfl
    | cons edge edges ih =>
        rw [List.map_cons, List.filterMap_cons, complete.edge? (known List.mem_cons_self),
          ih fun other member => known (List.mem_cons_of_mem _ member)]
  rw [complete.listed scope member]
  exact found _ List.filter_sublist.subset

theorem Complete.verifyScope (complete : graph.Complete) {scope : Scope}
    (member : scope ∈ graph.scopes) : graph.verifyScope scope = .ok () := by
  have listed := complete.listed scope member
  have known : ∀ id ∈ scope.exitEdges, (graph.edge? id).isSome = true := by
    intro id inside
    rw [listed] at inside
    obtain ⟨edge, leaves, rfl⟩ := List.mem_map.mp inside
    rw [complete.edge? (List.mem_filter.mp leaves).1]
    rfl
  have covered : ∀ anchor ∈ scope.exitPoints, ((graph.edges.filter fun edge =>
      scope.id ∈ edge.unwound).any fun edge =>
        edge.anchor = anchor && scope.id ∈ edge.unwound) = true := by
    intro anchor inside
    rw [listed] at inside
    obtain ⟨edge, leaves, rfl⟩ := List.mem_map.mp inside
    exact List.any_eq_true.mpr ⟨edge, leaves, by simpa using (List.mem_filter.mp leaves).2⟩
  have ended : (!scope.fallsThrough || (graph.edges.filter fun edge =>
      scope.id ∈ edge.unwound).any fun edge =>
        edge.kind = .fallthrough && edge.origin = scope.id) = true := by
    cases falls : scope.fallsThrough with
    | false => rfl
    | true =>
        obtain ⟨edge, inGraph, kind, origin, unwound⟩ := complete.ends scope member falls
        exact List.any_eq_true.mpr ⟨edge, by simp [inGraph, unwound], by simp [kind, origin]⟩
  unfold ScopeGraph.verifyScope
  simp only [complete.leaving member]
  refine both_ok (forM_ok fun id inside => by rw [known id inside]; rfl) ?_
  refine both_ok (forM_ok fun anchor inside => by rw [covered anchor inside]; rfl) ?_
  rw [ended]
  rfl

theorem Complete.verifyEdge (complete : graph.Complete) {edge : ExitEdge}
    (known : edge ∈ graph.edges) : graph.verifyEdge edge = .ok () := by
  obtain ⟨innermost, rest, chain, distinct⟩ := complete.unwinds edge known
  have length := chain.length_le distinct
  obtain ⟨others, unwound⟩ : ∃ others, edge.unwound = edge.origin :: others := by
    cases same : edge.unwound with
    | nil => simp [same] at innermost
    | cons first others =>
        rw [same] at innermost
        exact ⟨others, by rw [Option.some.inj innermost]⟩
  have found : graph.chain edge.origin = .ok (edge.unwound ++ rest) := by
    rw [unwound] at chain length ⊢
    exact chainWithin_of_chains chain (by simp at length ⊢; omega)
  have enumerated : ∀ id ∈ edge.unwound, (do
      let scope ← graph.scope id
      graph.demand (edge.id ∈ scope.exitEdges) (.notEnumerated edge.id id)) = .ok () := by
    intro id inside
    obtain ⟨scope, isScope⟩ := chain.scope? id (List.mem_append_left _ inside)
    obtain ⟨member, rfl⟩ := scope?_eq_some isScope
    have lists := complete.mem_exitEdges member known inside
    simp [ScopeGraph.scope, isScope, bind, Except.bind, lists]
  have contiguous : edge.unwound = (edge.unwound ++ rest).take edge.unwound.length := by simp
  unfold ScopeGraph.verifyEdge
  rw [found]
  exact both_ok (by rw [decide_eq_true contiguous]; rfl) (forM_ok enumerated)

/-- The check of a complete graph never fails. -/
theorem Complete.verify (complete : graph.Complete) : graph.verify = .ok () := by
  unfold ScopeGraph.verify
  rw [forM_ok fun scope member => complete.verifyScope member]
  exact forM_ok fun edge known => complete.verifyEdge known

end ScopeGraph

/-- The scope graph that is made of what the walk over a body found. -/
def Walk.graph (procedure : String) (walk : Walk) : ScopeGraph :=
  { procedure := procedure
    root := 0
    scopes := walk.scopes.map (Scope.withEdges walk.edges)
    edges := walk.edges }

namespace Walks

variable {procedure : String} {types : BindingTypes} {body : Block} {walk : Walk}

theorem scopeGraph {procedure : Procedure}
    (walks : Walks ⟨procedure.name, types⟩ [] {} (.block false procedure.body) walk) :
    procedure.scopeGraph types = .ok (walk.graph procedure.name) := by
  have run : procedure.body.walk ⟨procedure.name, types⟩ [] false {} = .ok walk := walks.run
  unfold Procedure.scopeGraph
  rw [run]
  rfl

theorem scopes_nodup {context : WalkContext}
    (walks : Walks context [] {} (.block false body) walk) :
    ((walk.graph procedure).scopes.map Scope.id).Nodup := by
  have same : (walk.graph procedure).scopes.map Scope.id = walk.scopes.map Scope.id := by
    simp [Walk.graph, Scope.withEdges, Function.comp_def]
  rw [same]
  exact walks.numbers.scopes.distinct

/-- Every scope of a walk is in the graph, with the edges that leave it. -/
theorem entered {context : WalkContext} (walks : Walks context [] {} (.block false body) walk) :
    ∀ scope ∈ walk.scopes, (walk.graph procedure).scope? scope.id =
      some (scope.withEdges (walk.graph procedure).edges) :=
  fun _ member => find?_key Scope.id walks.scopes_nodup (List.mem_map_of_mem member)

/-- The graph of a body is complete. -/
theorem complete {context : WalkContext}
    (walks : Walks context [] {} (.block false body) walk) : (walk.graph procedure).Complete where
  scopes := walks.scopes_nodup
  edges := walks.numbers.edges.distinct
  listed scope member := by
    obtain ⟨inner, -, rfl⟩ := List.mem_map.mp member
    rfl
  ends scope member falls := by
    obtain ⟨inner, inside, rfl⟩ := List.mem_map.mp member
    exact walks.ends inner inside falls
  unwinds := walks.unwinds walks.entered ⟨trivial, List.nodup_nil, by simp⟩

end Walks
end LifecycleHooks

import LifecycleHooks.Proofs.Attempt
import LifecycleHooks.Proofs.Scope.Completeness
import LifecycleHooks.Scope.Edit

/-!
# What the check of a scope graph ensures

An accepted graph may be any that passes, not only one that a body has.  Each of its edges
unwinds the innermost scopes of the chain around its origin, and none is left out between
them.  How far an edge reaches is checked from the scopes: one that records an exit point has
an edge for it.  So an edge whose outermost scope records its anchor unwinds all that it has
to, and an edge that no scope further out records may stop short.
-/

namespace LifecycleHooks

/-- A check of all items that succeeds succeeds for each. -/
theorem each_ok_of_forM {Item : Type} {items : List Item} {check : Item → Except Fault PUnit}
    (all : items.forM check = .ok ()) : ∀ item ∈ items, check item = .ok () := by
  induction items with
  | nil => simp
  | cons first items ih =>
      have opened : (check first >>= fun _ => items.forM check) = .ok () := all
      obtain ⟨⟨⟩, here, behind⟩ := eq_ok_of_bind opened
      intro item member
      rcases List.mem_cons.mp member with rfl | later
      · exact here
      · exact ih behind item later

namespace ScopeGraph

variable {graph : ScopeGraph}

theorem of_demand {condition : Bool} {defect : ExitDefect}
    (met : graph.demand condition defect = .ok ()) : condition = true := by
  unfold demand at met
  split at met
  · assumption
  · cases met

theorem scope_eq_ok {id : ScopeId} {scope : Scope} :
    graph.scope id = .ok scope ↔ graph.scope? id = some scope := by
  unfold ScopeGraph.scope
  cases graph.scope? id <;> simp

/-- A chain that is found leads from a scope to an outermost one. -/
theorem chains_of_chainWithin {fuel : Nat} {id : ScopeId} {chain : List ScopeId}
    (found : graph.chainWithin fuel id = .ok chain) : ∃ outer, chain = id :: outer ∧ graph.Chains chain := by
  induction fuel generalizing id chain with
  | zero => cases found
  | succ fuel ih =>
      obtain ⟨scope, known, found⟩ := eq_ok_of_bind found
      rw [scope_eq_ok] at known
      cases parent : scope.parent with
      | none =>
          rw [parent] at found
          obtain rfl := Except.ok.inj found
          exact ⟨[], rfl, by simp [known, parent], trivial⟩
      | some next =>
          rw [parent] at found
          obtain ⟨rest, inner, found⟩ := eq_ok_of_bind found
          obtain rfl := Except.ok.inj found
          obtain ⟨outer, rfl, chains⟩ := ih inner
          exact ⟨_, rfl, by simp [known, parent], chains⟩

/-- Scopes that stand in each other are those around the innermost one. -/
theorem Chains.unique {id : ScopeId} {first second : List ScopeId} (chain : graph.Chains (id :: first))
    (other : graph.Chains (id :: second)) : first = second := by
  induction first generalizing id second with
  | nil =>
      have same : some none = some second.head? := chain.1.symm.trans other.1
      exact (List.head?_eq_none_iff.mp (Option.some.inj same).symm).symm
  | cons next first ih =>
      have same : some (some next) = some second.head? := chain.1.symm.trans other.1
      obtain ⟨rest, rfl⟩ := List.head?_eq_some_iff.mp (Option.some.inj same).symm
      rw [ih chain.2 other.2]

theorem Chains.behind {before behind : List ScopeId} (chain : graph.Chains (before ++ behind)) :
    graph.Chains behind := by
  induction before with
  | nil => exact chain
  | cons id before ih => exact ih chain.2

/-- No scope stands in itself. -/
theorem Chains.nodup {ids : List ScopeId} (chain : graph.Chains ids) : ids.Nodup := by
  induction ids with
  | nil => exact List.nodup_nil
  | cons id outer ih =>
      refine List.nodup_cons.mpr ⟨fun inside => ?_, ih chain.2⟩
      obtain ⟨before, behind, split⟩ := List.append_of_mem inside
      have again : graph.Chains (id :: behind) := by
        have outside := chain.2
        rw [split] at outside
        exact outside.behind
      have length := congrArg List.length (split.symm.trans (chain.unique again))
      simp at length
      omega

/-- A number is that of the body of a loop. -/
def IsLoopBody (graph : ScopeGraph) (id : ScopeId) : Bool :=
  (graph.scope? id).any Scope.isLoopBody

/-- The scopes of a chain that an exit has to unwind: the block that ends, all scopes up to
the body of the procedure, or those up to and including the innermost loop body. -/
def due (graph : ScopeGraph) (kind : ExitKind) (chain : List ScopeId) : List ScopeId :=
  match kind with
  | .fallthrough => chain.take 1
  | .return => chain
  | .break | .continue => chain.take (chain.findIdx graph.IsLoopBody + 1)

theorem due_prefix (graph : ScopeGraph) (kind : ExitKind) (chain : List ScopeId) :
    graph.due kind chain <+: chain := by
  cases kind with
  | fallthrough => exact List.take_prefix ..
  | «return» => exact List.prefix_refl chain
  | «break» => exact List.take_prefix ..
  | «continue» => exact List.take_prefix ..

/-- An exit point is known to a scope, and one edge only stands for it. -/
structure RecordsExit (graph : ScopeGraph) (id : ScopeId) (edge : ExitEdge) : Prop where
  recorded : ∃ scope, graph.scope? id = some scope ∧ edge.anchor ∈ scope.exitPoints
  alone : ∀ other ∈ graph.edges, other.anchor = edge.anchor → other = edge

/-- A scope lists an edge among those that leave it. -/
def ListsEdge (graph : ScopeGraph) (id : ScopeId) (edge : ExitEdge) : Prop :=
  ∃ scope, graph.scope? id = some scope ∧ edge.id ∈ scope.exitEdges

/-- In an accepted graph every exit point of a scope has an edge that unwinds the scope. -/
theorem exitPoint_of_verify (accepted : graph.verify = .ok ()) {scope : Scope}
    (member : scope ∈ graph.scopes) {anchor : NodeId} (point : anchor ∈ scope.exitPoints) :
    ∃ edge ∈ graph.edges, edge.id ∈ scope.exitEdges ∧ edge.anchor = anchor ∧ scope.id ∈ edge.unwound := by
  obtain ⟨⟨⟩, scopes, -⟩ := eq_ok_of_bind accepted
  obtain ⟨⟨⟩, -, checked⟩ := eq_ok_of_bind (each_ok_of_forM scopes scope member)
  obtain ⟨⟨⟩, points, -⟩ := eq_ok_of_bind checked
  have covered := of_demand (each_ok_of_forM points anchor point)
  obtain ⟨edge, leaves, meets⟩ := List.any_eq_true.mp covered
  obtain ⟨id, listed, found⟩ := List.mem_filterMap.mp leaves
  have known : edge.id = id := by simpa using List.find?_some found
  exact ⟨edge, List.mem_of_find?_eq_some found, known ▸ listed, by simpa using meets⟩

/-- In an accepted graph an edge unwinds the innermost scopes of the chain around its origin,
and each of them lists it. -/
theorem edge_of_verify (accepted : graph.verify = .ok ()) {edge : ExitEdge} (member : edge ∈ graph.edges) :
    ∃ chain, graph.chain edge.origin = .ok chain ∧ graph.Chains chain ∧ edge.unwound <+: chain ∧
      ∀ id ∈ edge.unwound, graph.ListsEdge id edge := by
  obtain ⟨⟨⟩, -, edges⟩ := eq_ok_of_bind accepted
  obtain ⟨chain, found, checked⟩ := eq_ok_of_bind (each_ok_of_forM edges edge member)
  obtain ⟨⟨⟩, contiguous, listed⟩ := eq_ok_of_bind checked
  obtain ⟨-, -, chains⟩ := chains_of_chainWithin found
  have taken : edge.unwound = chain.take edge.unwound.length := by simpa using of_demand contiguous
  refine ⟨chain, found, chains, List.prefix_iff_eq_take.mpr taken, fun id unwound => ?_⟩
  obtain ⟨scope, known, lists⟩ := eq_ok_of_bind (each_ok_of_forM listed id unwound)
  exact ⟨scope, scope_eq_ok.mp known, by simpa using of_demand lists⟩

/-- In an accepted graph the edge of a recorded exit unwinds the scope that records it. -/
theorem RecordsExit.unwound (accepted : graph.verify = .ok ()) {id : ScopeId} {edge : ExitEdge}
    (records : graph.RecordsExit id edge) : id ∈ edge.unwound := by
  obtain ⟨scope, found, point⟩ := records.recorded
  obtain ⟨member, rfl⟩ := scope?_eq_some found
  obtain ⟨other, known, -, anchor, unwound⟩ := exitPoint_of_verify accepted member point
  exact records.alone other known anchor ▸ unwound

end ScopeGraph

/-- Of two beginnings of a list without repetitions, one that has the last item of the other
is not shorter. -/
theorem prefix_of_getLast? {Item : Type} {first second all : List Item} (distinct : all.Nodup)
    (isFirst : first <+: all) (isSecond : second <+: all)
    (reaches : ∀ last, first.getLast? = some last → last ∈ second) : first <+: second := by
  rcases List.prefix_or_prefix_of_prefix isFirst isSecond with shorter | longer
  · exact shorter
  obtain ⟨rest, rfl⟩ := longer
  rcases List.eq_nil_or_concat rest with rfl | ⟨others, last, rfl⟩
  · simp
  have inside : last ∈ second := reaches last (by simp)
  have apart := (List.nodup_append.mp (isFirst.sublist.nodup distinct)).2.2
  exact absurd rfl (apart last inside last (by simp))

namespace ScopeGraph

variable {graph : ScopeGraph}

/-- In an accepted graph every exit point of a scope has an edge that the scope lists and that
unwinds it, and every edge unwinds the innermost scopes of the chain around its origin, each
of which lists it.  An exit that the outermost scope it has to unwind records, with one edge
only, unwinds all that it has to: a `return` the whole chain, a `break` or `continue` the
chain up to the innermost loop body.  It unwinds no more unless further scopes list it. -/
theorem verified_edges_unwind (accepted : graph.verify = .ok ()) :
    (∀ scope ∈ graph.scopes, ∀ anchor ∈ scope.exitPoints, ∃ edge ∈ graph.edges,
      edge.id ∈ scope.exitEdges ∧ edge.anchor = anchor ∧ scope.id ∈ edge.unwound) ∧
    ∀ edge ∈ graph.edges, ∃ chain, graph.chain edge.origin = .ok chain ∧ graph.Chains chain ∧
      edge.unwound <+: chain ∧ (∀ id ∈ edge.unwound, graph.ListsEdge id edge) ∧
      ((∀ last, (graph.due edge.kind chain).getLast? = some last → graph.RecordsExit last edge) →
        graph.due edge.kind chain <+: edge.unwound ∧
          ((∀ id ∈ chain, id ∉ graph.due edge.kind chain → ¬ graph.ListsEdge id edge) →
            edge.unwound = graph.due edge.kind chain)) := by
  refine ⟨fun scope member anchor point => exitPoint_of_verify accepted member point, fun edge member => ?_⟩
  obtain ⟨chain, found, chains, unwound, listed⟩ := edge_of_verify accepted member
  refine ⟨chain, found, chains, unwound, listed, fun records => ?_⟩
  have reaches : graph.due edge.kind chain <+: edge.unwound :=
    prefix_of_getLast? chains.nodup (graph.due_prefix edge.kind chain) unwound
      fun last isLast => (records last isLast).unwound accepted
  refine ⟨reaches, fun unlisted => ?_⟩
  obtain ⟨further, split⟩ := reaches
  have apart := List.nodup_append.mp (split ▸ unwound.sublist.nodup chains.nodup)
  have none : further = [] := by
    refine List.eq_nil_iff_forall_not_mem.mpr fun id inside => ?_
    have isUnwound : id ∈ edge.unwound := split ▸ List.mem_append_right _ inside
    refine unlisted id (unwound.subset isUnwound) (fun due => ?_) (listed id isUnwound)
    exact apart.2.2 id due id inside rfl
  rw [← split, none, List.append_nil]

end ScopeGraph

/-- A procedure with one local that does one thing in the body of a loop. -/
def loopingProcedure (inLoop : Stmt) : Procedure :=
  { note := ⟨1, {}⟩
    name := "f"
    params := []
    result := 0
    body := .mk ⟨2, {}⟩
      [.declare ⟨3, {}⟩ "h" none (some 1) true (some 1),
        .loop ⟨4, {}⟩ (.boolean ⟨⟨5, {}⟩, none⟩ true) (.mk ⟨6, {}⟩ [inLoop])]
    resultBinding := none }

namespace ScopeGraph

/-- The graph of a procedure that returns out of a loop: the edge leaves both scopes. -/
def ofReturn : ScopeGraph :=
  (((loopingProcedure (.return ⟨7, {}⟩ none)).scopeGraph []).toOption).getD ⟨"", 0, [], []⟩

/-- The graph of a procedure that leaves a loop by `break`, with the edge marked as one for a
`return`: the scope of the local is not left by it. -/
def ofMarkedBreak : ScopeGraph :=
  ((((loopingProcedure (.break ⟨7, {}⟩)).scopeGraph []).bind fun graph =>
    graph.edit (.setKind 0 .return)).toOption).getD ⟨"", 0, [], []⟩

theorem verified_edges_unwind_ofReturn :
    ofReturn.verify = .ok () ∧ ∃ edge ∈ ofReturn.edges, edge.kind = .return ∧ edge.unwound = [1, 0] := by
  have accepted : ofReturn.verify = .ok () := by decide
  obtain ⟨edge, member, kind, origin, alone⟩ : ∃ edge ∈ ofReturn.edges, edge.kind = .return ∧
      edge.origin = 1 ∧ ofReturn.RecordsExit 0 edge :=
    ⟨⟨0, .return, 1, [1, 0], 7, [(1, 0), (0, 1)], [], {}⟩, by decide, rfl, rfl, by decide, by decide⟩
  obtain ⟨chain, found, -, -, -, complete⟩ := (verified_edges_unwind accepted).2 edge member
  have isChain : chain = [1, 0] := by
    rw [origin] at found
    exact Except.ok.inj (found.symm.trans (by decide))
  subst isChain
  rw [kind] at complete
  refine ⟨accepted, edge, member, kind, (complete ?_).2 ?_⟩
  · rintro last isLast
    obtain rfl : 0 = last := by simpa [due] using isLast
    exact alone
  · intro id inside outside
    exact absurd inside outside

/-- An accepted graph may have an edge that stops short: no exit point of the outer scope asks
for it. -/
theorem not_verified_edges_complete :
    ¬ ∀ graph : ScopeGraph,
      (∀ scope ∈ graph.scopes, ∃ chain, graph.chain scope.id = .ok chain) →
      (∀ edge ∈ graph.edges, (graph.scope? edge.origin).isSome) →
      graph.verify = .ok () →
      ∀ edge ∈ graph.edges, edge.kind ≠ .fallthrough →
        ∀ chain, graph.chain edge.origin = .ok chain → graph.due edge.kind chain <+: edge.unwound := by
  intro complete
  have founded : ∀ scope ∈ ofMarkedBreak.scopes, ∃ chain, ofMarkedBreak.chain scope.id = .ok chain := by
    intro scope member
    have inside : scope.id ∈ ofMarkedBreak.scopes.map Scope.id := List.mem_map_of_mem member
    obtain isRoot | isBody : scope.id = 0 ∨ scope.id = 1 := by
      simpa [show ofMarkedBreak.scopes.map Scope.id = [0, 1] by decide] using inside
    · exact ⟨[0], by rw [isRoot]; decide⟩
    · exact ⟨[1, 0], by rw [isBody]; decide⟩
  have short := complete ofMarkedBreak founded (by decide) (by decide)
    ⟨0, .return, 1, [1], 7, [(1, 0)], [], {}⟩ (by decide) (by decide) [1, 0] (by decide)
  exact absurd short (by decide)

end ScopeGraph
end LifecycleHooks

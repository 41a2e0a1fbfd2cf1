import LifecycleHooks.Proofs.Scope.LocalSafety

/-!
# Safety of exits

Whichever way control goes through a lowered procedure, the destructions that are
scheduled on the exits it takes leave no local alive whose destruction runs a hook, and
destroy none twice, none too early and none out of order.
-/

namespace LifecycleHooks

/-- The bindings that are destroyed at a statement or at the end of a block, in order. -/
def ExitSchedule.bindingsAt (schedule : ExitSchedule) (anchor : NodeId) : List BindingId :=
  (schedule.atAnchor anchor).map (·.declared.binding)

/-- A local of a procedure whose destruction runs a hook, as a resolver answers. -/
def Procedure.NeedsDestruction (procedure : Procedure) (types : BindingTypes)
    (hooks : Registry) (resolver : Resolver) (binding : BindingId) : Prop :=
  procedure.IsLocal binding ∧ ∃ type, types.lookup binding = some type ∧
    ∃ fuel later, ResolveM.isDestructible hooks fuel type resolver = .ok true later

theorem Procedure.watches {procedure : Procedure} {types : BindingTypes} (hooks : Registry)
    (resolver : Resolver) (declared : Local)
    (isLocal : procedure.IsLocal declared.binding ∧
      types.lookup declared.binding = some declared.type) :
    Watches hooks resolver (procedure.NeedsDestruction types hooks resolver) declared := by
  intro knows
  constructor
  · rintro ⟨-, type, found, fuel, later, answered⟩
    obtain rfl := Option.some.inj (found.symm.trans isLocal.2)
    rw [ResolveM.isDestructible_known knows] at answered
    exact (EStateM.Result.ok.inj answered).1
  · intro runs
    refine ⟨isLocal.1, declared.type, isLocal.2, 0, resolver, ?_⟩
    rw [ResolveM.isDestructible_known knows, runs]

/-- The scope graph of a lowered procedure is complete, and on every execution along the
scheduled destructions the locals that need it are destroyed or handed over exactly once,
the latest first, and nothing else is destroyed. -/
theorem exits_release_locals {procedure : Procedure} {types : BindingTypes}
    (lowered : procedure.IsLowered types) :
    ∃ graph, procedure.scopeGraph types = .ok graph ∧ graph.verify = .ok () ∧
      (graph.edges.map ExitEdge.anchor).Nodup ∧
      ∀ (hooks : Registry) (fuel : Nat) (resolver final : Resolver) (schedule : ExitSchedule),
        ResolveM.schedule hooks fuel graph resolver = .ok schedule final →
        ∀ events exit, Runs schedule.bindingsAt (.block false procedure.body) events exit →
          (exit = .fallthrough ∨ exit = .return) ∧
          Disciplined (procedure.NeedsDestruction types hooks final) [] events [] ∧
          (∀ binding, procedure.NeedsDestruction types hooks final binding →
            events.count (.start binding) =
              events.count (.destroy binding) + events.count (.handOver binding)) ∧
          ∀ binding, .destroy binding ∈ events →
            procedure.NeedsDestruction types hooks final binding := by
  classical
  obtain ⟨context, proc, signature, declarations, state, run, rfl⟩ := lowered
  obtain ⟨⟨first, names, bound⟩, body, start, numbered⟩ :=
    BodyM.lowerProcedure_boundFrom context run
  obtain ⟨walk, walks⟩ := bound.binds.walks ⟨procedure.name, state.bindingTypes⟩
    (show Fragment.StandsIn false [] (.block false procedure.body) from fun inLoop => by cases inLoop)
    {}
  have distinct : (walk.edges.map ExitEdge.anchor).Nodup := by
    rw [numbered] at walks
    exact walks.anchors_nodup
  refine ⟨walk.graph procedure.name, walks.scopeGraph, walks.complete.verify, distinct, ?_⟩
  intro hooks fuel resolver final schedule scheduling events exit runs
  have situated : Situated state.bindingTypes procedure.IsLocal names [] {} first names :=
    ⟨rfl, by simp, List.nodup_nil, by simp, bound.descending⟩
  have releases := walks.releases
    (fun edge member => ResolveM.schedule_atAnchor scheduling distinct member)
    (procedure.watches hooks final)
    (fun entry member needs => bound.outside entry member needs.1)
    bound.binds (fun id above below => ⟨bound.locals id above, bound.typed id above below⟩)
    situated (List.Subset.refl _) walks.entered (by simp [ScopeGraph.Covers, growInnermost])
  have nothing : liveBindings (procedure.NeedsDestruction state.bindingTypes hooks final) names =
      [] := by
    refine List.filter_eq_nil_iff.mpr fun binding member => ?_
    obtain ⟨entry, inside, rfl⟩ := List.mem_map.mp member
    simpa using fun needs => bound.outside entry inside (needs : Procedure.NeedsDestruction ..).1
  rw [nothing] at releases
  obtain ⟨left, arrives, disciplined⟩ := runs.disciplined releases
  obtain ⟨leaves, rfl⟩ : (exit = .fallthrough ∨ exit = .return) ∧ left = [] := by
    cases exit with
    | fallthrough =>
        refine ⟨.inl rfl, ?_⟩
        change (if walk.continues then some [] else none) = some left at arrives
        split at arrives
        · exact (Option.some.inj arrives).symm
        · cases arrives
    | «return» => exact ⟨.inr rfl, arrives⟩
    | «break» => cases arrives
    | «continue» => cases arrives
  refine ⟨leaves, disciplined, fun binding needs => ?_, fun binding => ?_⟩
  · simpa using disciplined.count_start needs
  · exact disciplined.guarded_of_destroy (by simp)

/-- The declaration of a handle, whose destruction is hooked. -/
def handleDeclarations : Declarations where
  table := { cells := #[
    { type := .object { name := "Handle", params := [], body := {}, span := {} } },
    { type := .void }] }
  names := [("Handle", 1)]

/-- The hook that closes a handle. -/
def handleHooks : Registry where
  entries := [{ kind := .destroy, target := 1, params := [], result := 2, impl := "close" }]
  frozen := true

/-- A procedure that opens a handle, may open others in a loop, and returns a last one. -/
def openHandles : Surface.ProcDecl :=
  let place : Position := ⟨1, 1⟩
  let handle : Surface.TypeExpr := .named place "Handle" []
  { place := place
    name := "open"
    isHook := false
    typeParams := []
    params := []
    result := none
    body := .mk place [
      .declare place "first" (some handle) none false,
      .loop place (.name place "first") (.mk place [
        .declare place "other" (some handle) none false,
        .branch place (.name place "other") (.mk place [.break place]) none]),
      .declare place "last" (some handle) none false,
      .return place (some (.name place "last"))] }

/-- The lowering of that procedure. -/
def lowerHandles : BodyM Procedure :=
  BodyM.lowerProcedure ⟨none, [], [], 9⟩ openHandles ⟨"open", [], 2, [], false, {}⟩

/-- The state that its lowering leaves. -/
def handlesLowered : BodyState :=
  lowerHandles.finish { declarations := handleDeclarations }

/-- What the procedure is lowered to. -/
def handlesProcedure : Procedure :=
  (lowerHandles.result? { declarations := handleDeclarations }).getD
    ⟨{}, "", [], 2, .mk {} [], none⟩

/-- Its scope graph. -/
def handlesGraph : ScopeGraph :=
  ((handlesProcedure.scopeGraph handlesLowered.bindingTypes).toOption).getD ⟨"", 0, [], []⟩

/-- The scheduling of its exits. -/
def scheduleHandles : ResolveM ExitSchedule :=
  ResolveM.schedule handleHooks 9 handlesGraph

/-- Its exit schedule. -/
def handlesSchedule : ExitSchedule :=
  (scheduleHandles.result? { table := handleDeclarations.table }).getD ⟨handlesGraph, []⟩

/-- The resolver that its scheduling leaves. -/
def handlesResolver : Resolver :=
  scheduleHandles.finish { table := handleDeclarations.table }

/-- What happens when the loop is left in its first round. -/
def handleEvents : List LocalEvent :=
  [.start 1, .start 2, .destroy 2, .start 3, .handOver 3, .destroy 1]

theorem handles_runs {destroys : NodeId → List BindingId} (atBreak : destroys 11 = [2])
    (atReturn : destroys 13 = [1]) :
    Runs destroys (.block false handlesProcedure.body) handleEvents .return := by
  let note (id : NodeId) : Note := { id := id, span := (⟨1, 1⟩ : Position).toSpan none }
  let named (id : NodeId) (name : String) (binding : BindingId) : Expr :=
    .var ⟨note id, some 1⟩ name (some binding)
  have body : handlesProcedure.body = .mk (note 2) [
      .declare (note 3) "first" none (some 1) false (some 1),
      .loop (note 4) (named 5 "first" 1) (.mk (note 6) [
        .declare (note 7) "other" none (some 1) false (some 2),
        .branch (note 8) (named 9 "other" 2) (.mk (note 10) [.break (note 11)]) none]),
      .declare (note 12) "last" none (some 1) false (some 3),
      .return (note 13) (some (named 14 "last" 3))] := rfl
  have leaves : Runs destroys (.statement (.break (note 11))) [.destroy 2] .break := by
    have broken : Runs destroys _ ((destroys 11).map .destroy) .break := .break (note 11)
    rwa [atBreak] at broken
  have round : Runs destroys (.block true (.mk (note 6) _)) [.start 2, .destroy 2] .break :=
    .blockExit true _ (.next (.declare (note 7) "other" none (some 1) false (some 2))
      (.stop [] (.branchYes (note 8) (named 9 "other" 2) none
        (.blockExit false (note 10) (.stop [] leaves (by decide)) (by decide))) (by decide)))
      (by decide)
  have returns : Runs destroys (.statement (.return (note 13) (some (named 14 "last" 3))))
      [.handOver 3, .destroy 1] .return := by
    have returned : Runs destroys _ ([.handOver 3] ++ (destroys 13).map .destroy) .return :=
      .return (note 13) (some (named 14 "last" 3))
    rwa [atReturn] at returned
  have behind : Runs destroys (.sequence _) ([.start 3] ++ [.handOver 3, .destroy 1]) .return :=
    .next (.declare (note 12) "last" none (some 1) false (some 3)) (.stop [] returns (by decide))
  rw [body]
  exact .blockExit false _ (.next (.declare ..) (.next (.loopBreak _ _ round) behind)) (by decide)

theorem exits_release_locals_handles :
    ∃ types graph, handlesProcedure.IsLowered types ∧
      handlesProcedure.scopeGraph types = .ok graph ∧
      ResolveM.schedule handleHooks 9 graph { table := handleDeclarations.table } =
        .ok handlesSchedule handlesResolver ∧
      Runs handlesSchedule.bindingsAt (.block false handlesProcedure.body) handleEvents .return ∧
      handlesProcedure.NeedsDestruction types handleHooks handlesResolver 1 ∧
      Disciplined (handlesProcedure.NeedsDestruction types handleHooks handlesResolver) []
        handleEvents [] := by
  have run : lowerHandles { declarations := handleDeclarations } =
      .ok handlesProcedure handlesLowered := rfl
  have lowered : handlesProcedure.IsLowered handlesLowered.bindingTypes := ⟨_, _, _, _, _, run, rfl⟩
  obtain ⟨graph, isGraph, -, -, safe⟩ := exits_release_locals lowered
  have same : handlesGraph = graph := by
    unfold handlesGraph
    rw [isGraph]
    rfl
  have answers : (scheduleHandles.result? { table := handleDeclarations.table }).isSome = true := by
    decide +kernel
  obtain ⟨schedule, answered⟩ := Option.isSome_iff_exists.mp answers
  have isSchedule : handlesSchedule = schedule := by
    unfold handlesSchedule
    rw [answered]
    rfl
  have scheduled : scheduleHandles { table := handleDeclarations.table } =
      .ok handlesSchedule handlesResolver := isSchedule ▸ Attempt.run_of_result? answered
  have runs : Runs handlesSchedule.bindingsAt (.block false handlesProcedure.body) handleEvents
      .return := handles_runs (by decide +kernel) (by decide +kernel)
  have hooked : (ResolveM.isDestructible handleHooks 9 1).result? handlesResolver = some true := by
    decide +kernel
  subst same
  refine ⟨_, _, lowered, isGraph, scheduled, runs, ?_, (safe _ _ _ _ _ scheduled _ _ runs).2.1⟩
  exact ⟨⟨by decide +kernel, by decide +kernel⟩, 1, by decide +kernel, 9, _, Attempt.run_of_result? hooked⟩

end LifecycleHooks

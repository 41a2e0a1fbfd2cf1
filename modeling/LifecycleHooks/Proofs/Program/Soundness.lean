import LifecycleHooks.Analysis
import LifecycleHooks.Proofs.Hook.Binding
import LifecycleHooks.Proofs.Lifting.QuerySafety
import LifecycleHooks.Proofs.Program.Lowering
import LifecycleHooks.Proofs.Program.Runs
import LifecycleHooks.Proofs.Program.Typing
import LifecycleHooks.Proofs.Scope.Completeness
import LifecycleHooks.Proofs.Scope.Ownership

/-!
# No source text is at fault

Whatever a source text holds, its analysis comes to an end with diagnostics, or uses up its
budget; it never fails otherwise, and never tells of an incomplete scope graph.  What it comes
to does not depend on the budget.  Each pass
hands on only what the next one can deal with: lowering leaves existing types and complete
scope graphs, binding closes the registry, and a resolver that is asked about existing types
is safe.
-/

namespace LifecycleHooks

open Attempt

/-- The scope graph of a lowered procedure is complete, and its locals have the types of
their bindings. -/
theorem Procedure.IsLowered.graph {procedure : Procedure} {types : BindingTypes}
    (lowered : procedure.IsLowered types) :
    ∃ graph, procedure.scopeGraph types = .ok graph ∧ graph.Complete ∧
      ∀ scope ∈ graph.scopes, TypedBy types scope.locals := by
  obtain ⟨context, proc, signature, declarations, state, run, rfl⟩ := lowered
  obtain ⟨⟨first, names, bound⟩, -⟩ := BodyM.lowerProcedure_boundFrom context run
  obtain ⟨walk, walks⟩ := bound.binds.walks ⟨procedure.name, state.bindingTypes⟩
    (show Fragment.StandsIn false [] (.block false procedure.body) from fun inLoop => by cases inLoop) {}
  have typed := walks.typedBy bound.binds bound.typed
  refine ⟨walk.graph procedure.name, walks.scopeGraph, walks.complete, fun scope member declared isLocal => ?_⟩
  obtain ⟨inner, inside, rfl⟩ := List.mem_map.mp member
  exact typed declared (List.mem_append_right _ (List.mem_flatMap.mpr ⟨inner, inside, isLocal⟩))

theorem firstItems_subset {Item : Type} (count : Int) (items : List Item) : firstItems count items ⊆ items := by
  unfold firstItems
  split <;> exact List.take_subset _ _

/-- The live locals of an unwound scope are locals of a scope of the graph. -/
theorem ScopeGraph.Complete.liveLocals {graph : ScopeGraph} (complete : graph.Complete) {edge : ExitEdge}
    (member : edge ∈ graph.edges) {id : ScopeId} (unwound : id ∈ edge.unwound) :
    ∃ live, graph.liveLocals edge id = .ok live ∧ ∃ scope ∈ graph.scopes, live ⊆ scope.locals := by
  obtain ⟨-, rest, chain, -⟩ := complete.unwinds edge member
  obtain ⟨scope, found⟩ := chain.scope? id (List.mem_append_left rest unwound)
  have known : graph.scope id = .ok scope := by
    unfold ScopeGraph.scope
    rw [found]
  refine ⟨(firstItems ((edge.live.lookup id).getD 0) scope.locals).reverse, ?_, scope, (scope?_eq_some found).1, ?_⟩
  · unfold ScopeGraph.liveLocals
    rw [known]
    rfl
  · exact fun declared live => firstItems_subset _ _ (List.mem_reverse.mp live)

namespace ResolveM

open Resolver

variable {hooks : Registry} {resolver : Resolver} {policy : ContextPolicy}

section Scheduling

theorem scheduleLocal_yields (frozen : hooks.frozen = true) (fuel : Nat) {declared : Local} (whole : resolver.Whole)
    (has : resolver.table.Has declared.type) :
    Yields Whole KeepsTypes (fun _ _ => True) (scheduleLocal hooks fuel declared) resolver := by
  apply (resolve_yields frozen fuel .destroy whole has).bind
  intro operation middle whole keeps _
  split
  · exact yields_pure whole trivial
  · apply (expandWithin_yields frozen .destroy fuel [] declared.name whole (keeps.has has)).bind
    exact fun _ _ whole _ _ => yields_pure whole trivial

/-- All locals of a graph are of existing types. -/
def HasLocals (graph : ScopeGraph) (resolver : Resolver) : Prop :=
  ∀ scope ∈ graph.scopes, ∀ declared ∈ scope.locals, resolver.table.Has declared.type

theorem scheduleEdge_yields (frozen : hooks.frozen = true) (fuel : Nat) {graph : ScopeGraph} {edge : ExitEdge}
    (complete : graph.Complete) (member : edge ∈ graph.edges) (whole : resolver.Whole)
    (has : HasLocals graph resolver) :
    Yields Whole KeepsTypes (fun _ _ => True) (scheduleEdge hooks fuel graph edge) resolver := by
  have parts : Yields Whole KeepsTypes (fun _ _ => True) (edge.unwound.mapM fun id => do
      let live ← Attempt.ofExcept (graph.liveLocals edge id)
      let kept := live.filter fun declared => declared.binding ∉ edge.consumed
      kept.filterMapM (scheduleLocal hooks fuel)) resolver := by
    refine yields_mapM_each (fun id unwound later whole keeps => ?_) whole
    obtain ⟨live, isLive, scope, inGraph, inside⟩ := complete.liveLocals member unwound
    refine Yields.read (ofExcept_eq_ok.mpr ⟨isLive, rfl⟩) ?_
    refine yields_filterMapM_each (fun declared kept last whole onwards => ?_) whole
    have isLocal := inside (List.mem_of_mem_filter kept)
    exact scheduleLocal_yields frozen fuel whole (onwards.has (keeps.has (has scope inGraph declared isLocal)))
  exact parts.bind fun _ _ whole _ _ => yields_pure whole trivial

/-- A complete graph is scheduled. -/
theorem schedule_yields (frozen : hooks.frozen = true) (fuel : Nat) {graph : ScopeGraph} (complete : graph.Complete)
    (whole : resolver.Whole) (has : HasLocals graph resolver) :
    Yields Whole KeepsTypes (fun _ _ => True) (schedule hooks fuel graph) resolver := by
  refine Yields.read (ofExcept_eq_ok.mpr ⟨complete.verify, rfl⟩) ?_
  have byEdge : Yields Whole KeepsTypes (fun _ _ => True) (graph.edges.mapM fun edge => do
      return (edge, ← scheduleEdge hooks fuel graph edge)) resolver := by
    refine yields_mapM_each (fun edge member later whole keeps => ?_) whole
    have stillHas : HasLocals graph later := fun scope inGraph declared isLocal =>
      keeps.has (has scope inGraph declared isLocal)
    exact (scheduleEdge_yields frozen fuel complete member whole stillHas).bind fun _ _ whole _ _ =>
      yields_pure whole trivial
  exact byEdge.bind fun _ _ whole _ _ => yields_pure whole trivial

end Scheduling

section Checking

/-- Diagnostics none of which tells of an incomplete scope graph. -/
def Reported (diagnostics : List Diagnostic) : Prop := ∀ diagnostic ∈ diagnostics, ¬ diagnostic.IsInternal

theorem contextDiagnostic_yields (expr : Expr) {type : TypeId} (site : ContextSite) (whole : resolver.Whole)
    (has : resolver.table.Has type) :
    Yields Whole KeepsTypes (fun diagnostic _ => ¬ diagnostic.IsInternal) (contextDiagnostic expr type site)
      resolver :=
  (spell_yields whole has).bind fun _ _ whole _ _ => yields_pure whole (by simp [Diagnostic.IsInternal])

theorem checkExpr_yields (frozen : hooks.frozen = true) (fuel : Nat) (policy : ContextPolicy) (sites : Sites)
    {expr : Expr} (whole : resolver.Whole) (has : ∀ type, expr.type = some type → resolver.table.Has type) :
    Yields Whole KeepsTypes (fun found _ => ∀ diagnostic ∈ found, ¬ diagnostic.IsInternal)
      (checkExpr hooks fuel policy sites expr) resolver := by
  unfold checkExpr
  split
  · exact yields_pure whole (by simp)
  · split
    · exact yields_pure whole (by simp)
    · rename_i type typed
      have has := has type typed
      have asks : Yields Whole KeepsTypes (fun _ _ => True) (isDestructible hooks fuel type) resolver :=
        (resolve_yields frozen fuel .destroy whole has).bind fun _ _ whole _ _ => yields_pure whole trivial
      apply asks.bind
      intro runs middle whole keeps _
      split
      · dsimp only
        split
        · exact yields_pure whole (by simp)
        · apply (contextDiagnostic_yields expr _ whole (keeps.has has)).bind
          exact fun diagnostic _ whole _ notInternal => yields_pure whole (by simpa using notInternal)
      · exact yields_pure whole (by simp)

theorem checkBlock_yields (frozen : hooks.frozen = true) (fuel : Nat) (policy : ContextPolicy) (sites : Sites)
    {block : Block} (whole : resolver.Whole) (has : ∀ type ∈ typesOf block.exprs, resolver.table.Has type) :
    Yields Whole KeepsTypes (fun found _ => Reported found) (checkBlock hooks fuel policy sites block) resolver := by
  refine yields_filterMapM (fun expr member later whole keeps => ?_) (fun _ _ _ _ told => told) whole
  refine checkExpr_yields frozen fuel policy sites whole fun type typed => keeps.has (has type ?_)
  exact List.mem_filterMap.mpr ⟨expr, member, typed⟩

end Checking

section HandingOff

theorem handOff_yields (frozen : hooks.frozen = true) (fuel : Nat) (spawn : Spawn) {arg : Expr} (index : Nat)
    (whole : resolver.Whole) (has : ∀ type, arg.type = some type → resolver.table.Has type) :
    Yields Whole KeepsTypes (fun _ _ => True) (handOff hooks fuel spawn arg index) resolver := by
  unfold handOff
  split
  · exact yields_pure whole trivial
  · rename_i type typed
    have has := has type typed
    apply (resolve_yields frozen fuel .deepCopy whole has).bind
    intro operation middle whole keeps _
    apply (copyWithin_yields frozen fuel [] (argumentPlace arg index) whole (keeps.has has)).bind
    exact fun _ _ whole _ _ => yields_pure whole trivial

theorem handOffBlock_yields (frozen : hooks.frozen = true) (fuel : Nat) {block : Block} (whole : resolver.Whole)
    (has : ∀ type ∈ typesOf block.exprs, resolver.table.Has type) :
    Yields Whole KeepsTypes (fun _ _ => True) (handOffBlock hooks fuel block) resolver := by
  have spawns : Yields Whole KeepsTypes (fun _ _ => True) (block.spawns.mapM (handOffSpawn hooks fuel)) resolver := by
    refine yields_mapM_each (fun spawn isSpawn later whole keeps => ?_) whole
    refine yields_filterMapM_each (fun (arg, index) member last whole onwards => ?_) whole
    have isArg : arg ∈ spawn.args := List.fst_mem_of_mem_zipIdx member
    refine handOff_yields frozen fuel spawn index whole fun type typed => onwards.has (keeps.has (has type ?_))
    exact List.mem_filterMap.mpr ⟨arg, block.args_subset_exprs spawn isSpawn isArg, typed⟩
  exact spawns.bind fun _ _ whole _ _ => yields_pure whole trivial

theorem operationTable_yields (frozen : hooks.frozen = true) (fuel : Nat) {ids : List TypeId} (whole : resolver.Whole)
    (has : ∀ id ∈ ids, resolver.table.Has id) :
    Yields Whole KeepsTypes (fun _ _ => True) (operationTable hooks fuel ids) resolver := by
  refine yields_mapM_each (fun id member later whole keeps => ?_) whole
  have operations : Yields Whole KeepsTypes (fun _ _ => True) (OpKind.all.mapM (resolve hooks fuel id)) later :=
    yields_mapM_each (fun kind _ last whole onwards =>
      (resolve_yields frozen fuel kind whole (onwards.has (keeps.has (has id member)))).mono
        fun _ _ _ _ _ => trivial) whole
  exact operations.bind fun _ _ whole _ _ => yields_pure whole trivial

end HandingOff

/-- Every lowered procedure over existing types is analysed, and no scope graph is incomplete. -/
theorem analyzeProcedures_yields (frozen : hooks.frozen = true) (fuel : Nat) (policy : ContextPolicy)
    {progress : Progress} (procedures : List LoweredProcedure) (whole : resolver.Whole)
    (lowered : ∀ one ∈ procedures, one.procedure.IsLowered one.bindingTypes)
    (known : ∀ one ∈ procedures, one.Known resolver.table) (reported : Reported progress.diagnostics) :
    Yields Whole KeepsTypes (fun progress _ => Reported progress.diagnostics)
      (analyzeProcedures hooks fuel policy progress procedures) resolver := by
  induction procedures generalizing progress resolver with
  | nil =>
      refine Yields.read (get_run resolver) (yields_pure whole ?_)
      exact List.forall_mem_append.mpr ⟨reported, whole.reports⟩
  | cons one rest ih =>
      obtain ⟨oneLowered, restLowered⟩ := List.forall_mem_cons.mp lowered
      obtain ⟨oneKnown, restKnown⟩ := List.forall_mem_cons.mp known
      obtain ⟨graph, walked, complete, typed⟩ := oneLowered.graph
      apply (checkBlock_yields frozen fuel policy one.procedure.sites whole oneKnown.exprs).bind
      intro misplaced checked whole first misplacedReported
      refine Yields.read (ofExcept_eq_ok.mpr ⟨walked, rfl⟩) ?_
      have hasLocals : HasLocals graph checked := fun scope inGraph declared isLocal =>
        first.has (oneKnown.bindings _ (mem_of_lookup (typed scope inGraph declared isLocal)))
      refine Yields.outcome (schedule_yields frozen fuel complete whole hasLocals) ?_ rfl
      intro schedule scheduled whole second _
      have onwards := trans_of KeepsTypes first second
      apply (handOffBlock_yields frozen fuel whole fun type member => onwards.has (oneKnown.exprs type member)).bind
      intro handoffs handed whole third _
      refine ih whole restLowered (fun other member => ?_) (List.forall_mem_append.mpr ⟨reported, misplacedReported⟩)
      exact (restKnown other member).extends_ (trans_of KeepsTypes onwards third)

end ResolveM

/-- Binding the hooks of a lowered program succeeds, closes the registry, and reports only what
has to do with hooks. -/
theorem Binder.bindAll_codes {table : TypeTable} {decls : List HookDecl} (regular : table.Regular)
    (isOver : ∀ decl ∈ decls, decl.IsOver table) :
    ∃ binder, bindAll table decls {} = .ok () binder ∧ binder.registry.frozen = true ∧
      ∀ diagnostic ∈ binder.diagnostics, ∃ code ∈ Code.ofBinding, diagnostic.code = some code := by
  have nothing : HoldsFirst table [] {} := by simp [HoldsFirst, HookDecl.IsFirst, Registry.lookup]
  obtain ⟨entries, diagnostics, inOrder, -, run⟩ := bindEach_ruled regular isOver {} [] nothing rfl
  exact ⟨_, bind_eq_ok.mpr ⟨_, _, run, rfl⟩, rfl, inOrder.codes⟩

namespace ProgramAnalysis

/-- The resolver answers all that it is asked about a lowered program. -/
theorem inquire_yields (fuel : Nat) (policy : ContextPolicy) {lowered : LoweredProgram} {binder : Binder}
    (sound : lowered.Sound)
    (isLowered : ∀ one ∈ lowered.procedures, one.procedure.IsLowered one.bindingTypes)
    (frozen : binder.registry.frozen = true) (reported : ResolveM.Reported binder.diagnostics) :
    Yields Resolver.Whole Resolver.KeepsTypes (fun found _ => ResolveM.Reported found.2.diagnostics)
      (inquire fuel policy lowered binder) { table := lowered.table } := by
  have start : Resolver.Whole { table := lowered.table } :=
    ⟨sound.proper, by simp, by simp, by simp, by simp⟩
  have types : ∀ id ∈ lowered.types.map Prod.snd, lowered.table.Has id := fun id member => by
    obtain ⟨entry, isEntry, rfl⟩ := List.mem_map.mp member
    exact sound.types entry isEntry
  apply (ResolveM.operationTable_yields frozen fuel start types).bind
  intro operations middle middleWhole keeps _
  have known : ∀ one ∈ lowered.procedures, one.Known middle.table :=
    fun one member => (sound.procedures one member).extends_ keeps
  have reported : ResolveM.Reported (lowered.diagnostics ++ binder.diagnostics) :=
    List.forall_mem_append.mpr ⟨sound.reports, reported⟩
  apply (ResolveM.analyzeProcedures_yields frozen fuel policy lowered.procedures middleWhole isLowered known
    reported).bind
  exact fun _ _ lastWhole _ told => yields_pure lastWhole told

/-- Every program whose spawns are of calls is analysed without a report of an incomplete
scope graph, unless the budget is used up. -/
theorem ofProgram_reported (file : Option String) (fuel : Nat) (policy : ContextPolicy)
    {program : Surface.Program} (noStray : program.strayOperand? = none) :
    match ofProgram file fuel policy program with
    | .ok analysis => ResolveM.Reported analysis.diagnostics
    | .error fault => fault = .exhausted := by
  have lowers := LoweredProgram.ofProgram_sound file fuel noStray
  rw [ofProgram_eq]
  cases lowering : LoweredProgram.ofProgram file fuel program with
  | error fault =>
      rw [lowering] at lowers
      exact lowers
  | ok lowered =>
      rw [lowering] at lowers
      obtain ⟨binder, binds, frozen, codes⟩ := Binder.bindAll_codes lowers.proper.toRegular lowers.hooks
      have reported : ResolveM.Reported binder.diagnostics := fun diagnostic member isInternal => by
        obtain ⟨code, ofBinding, isCode⟩ := codes diagnostic member
        obtain rfl := Option.some.inj (isCode.symm.trans isInternal)
        simp [Code.ofBinding] at ofBinding
      have answers := inquire_yields fuel policy lowers (LoweredProgram.isLowered lowering) frozen reported
      dsimp only
      rw [binds]
      dsimp only
      cases run : inquire fuel policy lowered binder { table := lowered.table } with
      | error fault resolver => exact answers.of_error run
      | ok found resolver => exact (answers.of_ok run).2

end ProgramAnalysis

/-- What is parsed spawns calls only. -/
theorem Surface.parse_noStray {source : String} {program : Surface.Program} (run : parse source = .ok program) :
    program.strayOperand? = none := by
  unfold parse Lexed.program at run
  split at run
  · cases run
  · cases run
  · split at run
    · cases run
    · rename_i noStray
      exact Except.ok.inj run ▸ noStray

end LifecycleHooks

import LifecycleHooks.Proofs.Program.Inquiries
import LifecycleHooks.Proofs.Program.Runs
import LifecycleHooks.Proofs.Scope.Completeness
import LifecycleHooks.Proofs.Scope.Ownership
import Mathlib

/-!
# Owners of fresh values

A call that initializes a local is fine where destructible values are checked, because the
local takes the value over.  The type that is kept for the local is the one that is spelled,
or else that of the call; by the plan of that type the local is destroyed on every exit on
which it is live and not handed over.  A spelled type is not compared with the type of the
call, so under a type that needs no destruction the value of a call is never destroyed.
-/

namespace LifecycleHooks

open Attempt Resolver

namespace ResolveM

variable {hooks : Registry} {fuel : Nat} {policy : ContextPolicy}

/-- What was found about a procedure was scheduled along its scope graph, and nothing that
the resolver knew then was forgotten. -/
def Scheduled (hooks : Registry) (fuel : Nat) (resolver : Resolver) (lowered : LoweredProcedure)
    (analysis : ProcedureAnalysis) : Prop :=
  analysis.lowered = lowered ∧ ∃ graph before after,
    lowered.procedure.scopeGraph lowered.bindingTypes = .ok graph ∧
      schedule hooks fuel graph before = .ok analysis.schedule after ∧ after.Extends resolver

/-- When nothing is reported, every procedure was analysed. -/
theorem analyzeProcedures_scheduled {progress result : Progress} {procedures : List LoweredProcedure}
    {resolver final : Resolver}
    (run : analyzeProcedures hooks fuel policy progress procedures resolver = .ok result final)
    (clean : result.diagnostics = []) :
    ∃ analyses, result.procedures = progress.procedures ++ analyses ∧
      List.Forall₂ (Scheduled hooks fuel final) procedures analyses := by
  have extending := extends_leadsQueries hooks
  obtain ⟨analyses, all, each⟩ := analyzeProcedures_analyzes extending run (by simp [clean])
  refine ⟨analyses, all, each.imp fun lowered analysis found => ?_⟩
  obtain ⟨same, graph, before, middle, after, isGraph, scheduling, handing, onwards⟩ := found
  have extends_ : middle.Extends final := trans_of Extends ((handOffBlock_leads extending _).of_ok handing) onwards
  exact ⟨same, graph, before, middle, isGraph, scheduling, extends_⟩

end ResolveM

namespace ProgramAnalysis

/-- What was found about a procedure has a local for a declaration, which takes over the
values of a type: wherever it is live on an exit edge that does not hand it over, it is
destroyed by the plan of the type, if destroying such values runs a hook. -/
structure Owns (program : ProgramAnalysis) (fuel : Nat) (analysis : ProcedureAnalysis) (note : Note)
    (name : String) (binding : BindingId) (type : TypeId) (scope : Scope) (declared : Local) : Prop where
  isScope : scope ∈ analysis.schedule.graph.scopes
  inScope : declared ∈ scope.locals
  declares : declared.declaration = note.id ∧ declared.name = name ∧ declared.binding = binding
  destroyed : program.resolver.Destructible program.registry type →
    ∀ edge ∈ analysis.schedule.graph.edges, analysis.schedule.graph.IsLive scope.id declared edge →
      binding ∉ edge.consumed → ∃ destruction ∈ analysis.schedule.onEdge edge.id,
        destruction.declared = declared ∧
          ResolveM.resolve program.registry fuel type .destroy program.resolver =
            .ok destruction.operation program.resolver ∧
          ResolveM.expand program.registry fuel type .destroy name program.resolver =
            .ok destruction.plan program.resolver

theorem owns_of_scheduled {program : ProgramAnalysis} {fuel : Nat} {lowered : LoweredProcedure}
    {analysis : ProcedureAnalysis}
    (scheduled : ResolveM.Scheduled program.registry fuel program.resolver lowered analysis)
    (isLowered : lowered.procedure.IsLowered lowered.bindingTypes) {note : Note} {name : String}
    {value : Expr} {spelled : Option TypeId} {mutability : Bool} {binding : Option BindingId}
    {type : TypeId} (known : value.type = some type)
    (reaches : Reaches (.declare note name (some value) spelled mutability binding)
      (.block false lowered.procedure.body)) :
    ∃ id scope declared, binding = some id ∧ declared.type = spelled.getD type ∧
      program.Owns fuel analysis note name id (spelled.getD type) scope declared := by
  obtain ⟨rfl, graph, before, after, isGraph, scheduling, extends_⟩ := scheduled
  obtain ⟨context, proc, signature, declarations, state, run, types⟩ := isLowered
  obtain ⟨⟨first, names, bound⟩, -⟩ := BodyM.lowerProcedure_boundFrom context run
  rw [types] at bound
  obtain ⟨walk, walks⟩ := bound.binds.walks ⟨analysis.lowered.procedure.name, analysis.lowered.bindingTypes⟩
    (show Fragment.StandsIn false [] (.block false analysis.lowered.procedure.body) from
      fun inLoop => by cases inLoop) {}
  obtain rfl := Except.ok.inj (walks.scopeGraph.symm.trans isGraph)
  obtain ⟨id, rfl⟩ := reaches.bound bound.binds
  have recorded : analysis.lowered.bindingTypes.lookup id = some (spelled.getD type) := by
    refine bound.recorded id _ (reaches.declarations ?_)
    cases spelled <;> simp [Stmt.declarations, known]
  obtain ⟨order, declared⟩ := reaches.declares recorded walks
  rw [Walk.allLocals, walks.block_locals, List.nil_append] at declared
  obtain ⟨scope, isScope, inScope⟩ := List.mem_flatMap.mp declared
  have same := ResolveM.schedule_graph scheduling
  refine ⟨id, scope.withEdges walk.edges, _, rfl, rfl, ?_, inScope, ⟨rfl, rfl, rfl⟩, ?_⟩
  · rw [same]
    exact List.mem_map_of_mem isScope
  · rw [same]
    intro destructible edge inGraph isLive kept
    obtain ⟨destruction, scheduled, plans⟩ :=
      ResolveM.schedule_plans scheduling walks.complete.edges extends_ inGraph isLive kept destructible
    exact ⟨destruction, scheduled, plans.declares, plans.operation, plans.plan⟩

/-- When nothing is reported about a program, every procedure was analysed, and every local
that is reached and that a call initializes has the type that is spelled for it, or else the
type of the call.  Wherever it is live on an exit edge that does not hand it over, it is
destroyed by the plan of that type, if destroying such values runs a hook. -/
theorem initialized_local_owns {file : Option String} {fuel : Nat} {policy : ContextPolicy}
    {source : String} {program : ProgramAnalysis}
    (analyzed : analyze file fuel policy source = .ok (.analyzed program))
    (clean : (Analysis.analyzed program).isClean = true) {lowered : LoweredProcedure}
    (member : lowered ∈ program.lowered.procedures) :
    ∃ analysis ∈ program.procedures, analysis.lowered = lowered ∧
      ∀ note name call callee args spelled mutability binding type,
        Reaches (.declare note name (some (.call call callee args)) spelled mutability binding)
          (.block false lowered.procedure.body) → call.type = some type →
        ∃ id scope declared, binding = some id ∧ declared.type = spelled.getD type ∧
          program.Owns fuel analysis note name id (spelled.getD type) scope declared := by
  obtain ⟨surface, -, run⟩ := analyze_eq_analyzed analyzed
  obtain ⟨binder, before, progress, steps⟩ := ofProgram_eq_ok.mp run
  have silent : progress.diagnostics = [] :=
    steps.diagnostics.symm.trans (List.isEmpty_iff.mp clean)
  obtain ⟨analyses, all, each⟩ := ResolveM.analyzeProcedures_scheduled steps.analyzes silent
  obtain ⟨analysis, analysed, scheduled⟩ := TypeTree.exists_of_mem_forall₂ each.flip lowered member
  have isLowered := LoweredProgram.isLowered steps.lowers lowered member
  rw [List.nil_append] at all
  refine ⟨analysis, by rw [steps.procedures, all]; exact analysed, scheduled.1, ?_⟩
  intro note name call callee args spelled mutability binding type reaches known
  have typed : (Expr.call call callee args).type = some type := known
  exact owns_of_scheduled scheduled isLowered typed reaches

/-- Every local that is reached and that a call initializes would be destroyed by the plan of
the type of the call. -/
def InitializersOwn : Prop :=
  ∀ (file : Option String) (fuel : Nat) (policy : ContextPolicy) (source : String)
    (program : ProgramAnalysis), analyze file fuel policy source = .ok (.analyzed program) →
    (Analysis.analyzed program).isClean = true → ∀ lowered ∈ program.lowered.procedures,
    ∃ analysis ∈ program.procedures, analysis.lowered = lowered ∧
      ∀ note name call callee args spelled mutability binding type,
        Reaches (.declare note name (some (.call call callee args)) spelled mutability binding)
          (.block false lowered.procedure.body) → call.type = some type →
        program.resolver.Destructible program.registry type →
        ∃ id scope declared, binding = some id ∧
          program.Owns fuel analysis note name id type scope declared

/-- A procedure that keeps a handle, and loses another one under the type of integers. -/
def handlesSource : String :=
  "type Handle = object \x7b \x7d\n" ++
  "proc `=destroy`(handle: Handle) \x7b \x7d\n" ++
  "proc make(): Handle \x7b \x7d\n" ++
  "proc use() \x7b let kept = make(); let lost: Int = make(); \x7d\n"

/-- The program that the text is read as. -/
def handlesProgram : Surface.Program :=
  let handle (line column : Nat) : Surface.TypeExpr := .named ⟨line, column⟩ "Handle" []
  { types := [.object ⟨⟨1, 1⟩, "Handle", [], none, []⟩]
    procs := [
      ⟨⟨2, 1⟩, "=destroy", true, [], [⟨⟨2, 17⟩, "handle", handle 2 25⟩], none, .mk ⟨2, 33⟩ []⟩,
      ⟨⟨3, 1⟩, "make", false, [], [], some (handle 3 14), .mk ⟨3, 21⟩ []⟩,
      ⟨⟨4, 1⟩, "use", false, [], [], none, .mk ⟨4, 12⟩ [
        .declare ⟨4, 14⟩ "kept" none (some (.call ⟨4, 25⟩ "make" [])) false,
        .declare ⟨4, 33⟩ "lost" (some (.named ⟨4, 43⟩ "Int" [])) (some (.call ⟨4, 49⟩ "make" []))
          false]⟩] }

/-- What is found about the program. -/
def handlesAnalysis : ProgramAnalysis := found none 9 .standard handlesProgram

/-- The declaration of a local that is initialized with a new handle. -/
def makesHandle (id : NodeId) (column callColumn : Nat) (name : String) (spelled : Option TypeId)
    (binding : BindingId) : Stmt :=
  let note (id : NodeId) (column : Nat) : Note := ⟨id, (⟨4, column⟩ : Position).toSpan none⟩
  .declare (note id column) name (some (.call ⟨note (id + 1) callColumn, some 4⟩ "make" [])) spelled
    false (some binding)

theorem lower_handles : (LoweredProgram.ofProgram none 9 handlesProgram).toOption.bind
    (fun program => program.procedures.getLast?.map (·.procedure.body)) =
      some (.mk ⟨2, (⟨4, 12⟩ : Position).toSpan none⟩
        [makesHandle 3 14 25 "kept" none 1, makesHandle 5 33 49 "lost" (some 1) 2]) := by cbv

theorem analyze_handles :
    analyze none 9 .standard handlesSource = .ok (.analyzed handlesAnalysis) ∧
      (Analysis.analyzed handlesAnalysis).isClean = true ∧
      handlesAnalysis.resolver.Destructible handlesAnalysis.registry 4 ∧
      ∃ lowered ∈ handlesAnalysis.lowered.procedures, lowered.procedure.name = "use" ∧
        Reaches (makesHandle 3 14 25 "kept" none 1) (.block false lowered.procedure.body) ∧
        Reaches (makesHandle 5 33 49 "lost" (some 1) 2) (.block false lowered.procedure.body) := by
  have parsed : Surface.parse handlesSource = .ok handlesProgram := by cbv
  have answers : (ofProgram none 9 .standard handlesProgram).toOption.isSome = true := by decide +kernel
  have analyzed : ofProgram none 9 .standard handlesProgram = .ok handlesAnalysis := ofProgram_found answers
  have hooked : (ResolveM.isDestructible handlesAnalysis.registry 9 4).result? handlesAnalysis.resolver =
      some true := by decide +kernel
  obtain ⟨_, _, _, steps⟩ := ofProgram_eq_ok.mp analyzed
  have bodies := lower_handles
  rw [steps.lowers] at bodies
  obtain ⟨lowered, isLast, body⟩ := Option.map_eq_some_iff.mp bodies
  have named : handlesAnalysis.lowered.procedures.getLast?.map (·.procedure.name) = some "use" := by
    decide +kernel
  rw [isLast] at named
  refine ⟨?_, by decide +kernel, ⟨9, _, run_of_result? hooked⟩, lowered, List.mem_of_getLast? isLast,
    Option.some.inj named, ?_, ?_⟩
  · exact analyze_found parsed answers
  · rw [body]
    exact .scope _ _ (.first _ .here)
  · rw [body]
    have passes : Runs (fun _ => []) (.statement (makesHandle 3 14 25 "kept" none 1)) _ .fallthrough :=
      .declare ..
    exact .scope _ _ (.behind passes (.first _ .here))

theorem initialized_local_owns_handles :
    ∃ lowered ∈ handlesAnalysis.lowered.procedures,
      analyze none 9 .standard handlesSource = .ok (.analyzed handlesAnalysis) ∧
      (Analysis.analyzed handlesAnalysis).isClean = true ∧
      Reaches (makesHandle 3 14 25 "kept" none 1) (.block false lowered.procedure.body) ∧
      handlesAnalysis.resolver.Destructible handlesAnalysis.registry 4 ∧
      ∃ analysis ∈ handlesAnalysis.procedures, analysis.lowered = lowered ∧
        ∃ id scope declared, some 1 = some id ∧ declared.type = 4 ∧
          handlesAnalysis.Owns 9 analysis ⟨3, (⟨4, 14⟩ : Position).toSpan none⟩ "kept" id 4 scope declared := by
  obtain ⟨analyzed, clean, destructible, lowered, member, -, reaches, -⟩ := analyze_handles
  obtain ⟨analysis, analysed, same, owns⟩ := initialized_local_owns analyzed clean member
  exact ⟨lowered, member, analyzed, clean, reaches, destructible, analysis, analysed, same,
    owns _ _ _ _ _ _ _ _ _ reaches rfl⟩

theorem not_initializersOwn : ¬ InitializersOwn := by
  intro owned
  obtain ⟨analyzed, clean, destructible, lowered, member, named, -, reaches⟩ := analyze_handles
  obtain ⟨analysis, analysed, same, owns⟩ := owned _ _ _ _ _ analyzed clean lowered member
  obtain ⟨id, scope, declared, -, owns⟩ := owns _ _ _ _ _ _ _ _ _ reaches rfl destructible
  -- The local is live at the end of the body, where nothing is destroyed for it.
  have left : ∀ analysis ∈ handlesAnalysis.procedures, analysis.lowered.procedure.name = "use" →
      ∀ scope ∈ analysis.schedule.graph.scopes, ∀ declared ∈ scope.locals, declared.name = "lost" →
        ∃ edge ∈ analysis.schedule.graph.edges, scope.id ∈ edge.unwound ∧
          (∃ live ∈ (analysis.schedule.graph.liveLocals edge scope.id).toOption, declared ∈ live) ∧
          declared.binding ∉ edge.consumed ∧
          ∀ destruction ∈ analysis.schedule.onEdge edge.id, destruction.declared ≠ declared := by
    decide +kernel
  obtain ⟨isNote, isNamed, isBinding⟩ := owns.declares
  obtain ⟨edge, inGraph, unwound, ⟨live, isLive, member⟩, kept, undestroyed⟩ :=
    left analysis analysed (same ▸ named) scope owns.isScope declared owns.inScope isNamed
  have found : analysis.schedule.graph.liveLocals edge scope.id = .ok live := by
    cases answer : analysis.schedule.graph.liveLocals edge scope.id with
    | error fault => simp [answer, Except.toOption] at isLive
    | ok others => simpa [answer, Except.toOption] using isLive
  obtain ⟨destruction, scheduled, destroys, -⟩ :=
    owns.destroyed destructible edge inGraph ⟨unwound, live, found, member⟩ (isBinding ▸ kept)
  exact undestroyed destruction scheduled destroys

end ProgramAnalysis
end LifecycleHooks

import LifecycleHooks.Proofs.NamedValues
import LifecycleHooks.Proofs.Program.Initializers
import LifecycleHooks.Proofs.Program.Soundness

/-!
# Schedule reports

A schedule report has a section on the exit edges of each procedure and, where the procedure
spawns tasks, one on what is handed to them.  The first has the name of the procedure and the
second a name made from it, and of sections with one name only the last is kept.  The report is
the list of all sections exactly when their names are all different.  Several hooks may have
the name of the same operation, and then sections are lost, and the edges of one hook may stand
beside the spawns of another.
-/

namespace LifecycleHooks

open Attempt Resolver

namespace Attempt

/-- What each result alone tells of its item, the results tell one after the other. -/
theorem mapM_views {State First Second View : Type} {items : List First} {action : First → Attempt State Second}
    {state final : State} {results : List Second} (view : Second → View) (wanted : First → View)
    (each : ∀ item before result later, action item before = .ok result later → view result = wanted item)
    (run : items.mapM action state = .ok results final) : results.map view = items.map wanted := by
  induction items generalizing state results with
  | nil =>
      obtain ⟨rfl, rfl⟩ := EStateM.Result.ok.inj run
      rfl
  | cons item items ih =>
      rw [List.mapM_cons] at run
      obtain ⟨result, middle, acted, run⟩ := bind_eq_ok.mp run
      obtain ⟨others, last, rest, run⟩ := bind_eq_ok.mp run
      obtain ⟨rfl, rfl⟩ := EStateM.Result.ok.inj run
      rw [List.map_cons, List.map_cons, each item state result middle acted, ih rest]

end Attempt

/-- The arguments with a known type of a spawn: of which spawn and callee, where they stand, and
their type. -/
def Spawn.handed (spawn : Spawn) : List (NodeId × String × Nat × TypeId) :=
  spawn.args.zipIdx.filterMap fun (arg, index) =>
    arg.type.map fun type => (spawn.note.id, spawn.callee, index, type)

/-- The argument that a handoff is about. -/
def Handoff.given (handoff : Handoff) : NodeId × String × Nat × TypeId :=
  (handoff.spawn, handoff.callee, handoff.index, handoff.type)

/-- The entry of a schedule report for an exit edge. -/
def ExitSchedule.entry (schedule : ExitSchedule) (edge : ExitEdge) : ScheduleEntry :=
  .edge edge.id edge.kind edge.span.line ((schedule.onEdge edge.id).map (·.declared.name))
    ((schedule.onEdge edge.id).flatMap (callLines ·.plan))

namespace ResolveM

variable {hooks : Registry} {fuel : Nat} {resolver later : Resolver}

/-- Every edge of a scope graph is entered once in its schedule, in their order. -/
theorem schedule_byEdge {graph : ScopeGraph} {schedule : ExitSchedule}
    (run : ResolveM.schedule hooks fuel graph resolver = .ok schedule later)
    (distinct : (graph.edges.map ExitEdge.id).Nodup) :
    schedule.byEdge = graph.edges.map fun edge => (edge, schedule.onEdge edge.id) := by
  obtain ⟨_, _, _, rest⟩ := bind_eq_ok.mp run
  obtain ⟨byEdge, last, mapped, rest⟩ := bind_eq_ok.mp rest
  obtain ⟨rfl, rfl⟩ := EStateM.Result.ok.inj rest
  have edges : byEdge.map Prod.fst = graph.edges.map id := mapM_views Prod.fst id (fun edge before entry later run => by
    obtain ⟨scheduled, ended, scheduling, rest⟩ := bind_eq_ok.mp run
    obtain ⟨rfl, rfl⟩ := EStateM.Result.ok.inj rest
    rfl) mapped
  rw [List.map_id] at edges
  have keys : (byEdge.map fun entry => entry.1.id).Nodup := by
    rw [← edges, List.map_map] at distinct
    exact distinct
  rw [← edges, List.map_map]
  refine (List.map_id byEdge).symm.trans (List.map_congr_left fun entry member => ?_)
  have found := find?_key (fun entry : ExitEdge × List ScheduledDestroy => entry.1.id) keys member
  simp [ExitSchedule.onEdge, found]

theorem handOff_given {spawn : Spawn} {arg : Expr} {index : Nat} {handoff : Option Handoff}
    (run : handOff hooks fuel spawn arg index resolver = .ok handoff later) :
    handoff.map Handoff.given = arg.type.map fun type => (spawn.note.id, spawn.callee, index, type) := by
  unfold handOff at run
  cases typed : arg.type with
  | none =>
      rw [typed] at run
      obtain ⟨rfl, rfl⟩ := EStateM.Result.ok.inj run
      rfl
  | some type =>
      rw [typed] at run
      obtain ⟨operation, middle, resolved, run⟩ := bind_eq_ok.mp run
      obtain ⟨plan, last, planned, run⟩ := bind_eq_ok.mp run
      obtain ⟨rfl, rfl⟩ := EStateM.Result.ok.inj run
      rfl

theorem handOffSpawn_given {spawn : Spawn} {handoffs : List Handoff}
    (run : handOffSpawn hooks fuel spawn resolver = .ok handoffs later) :
    handoffs.map Handoff.given = spawn.handed := by
  unfold handOffSpawn at run
  rw [filterMapM_eq] at run
  obtain ⟨found, middle, mapped, run⟩ := bind_eq_ok.mp run
  obtain ⟨rfl, rfl⟩ := EStateM.Result.ok.inj run
  have given := mapM_views (Option.map Handoff.given)
    (fun (arg, index) => arg.type.map fun type => (spawn.note.id, spawn.callee, index, type))
    (fun _ _ _ _ => handOff_given) mapped
  calc (found.filterMap id).map Handoff.given
      = (found.map (Option.map Handoff.given)).filterMap id := by simp [List.map_filterMap, List.filterMap_map]
    _ = spawn.handed := by
        rw [given, List.filterMap_map]
        rfl

/-- Every argument with a known type of every spawn is handed over once, in the order written. -/
theorem handOffBlock_given {block : Block} {handoffs : List Handoff}
    (run : handOffBlock hooks fuel block resolver = .ok handoffs later) :
    handoffs.map Handoff.given = block.spawns.flatMap Spawn.handed := by
  obtain ⟨found, middle, mapped, run⟩ := bind_eq_ok.mp run
  obtain ⟨rfl, rfl⟩ := EStateM.Result.ok.inj run
  have given := mapM_views (List.map Handoff.given) Spawn.handed (fun _ _ _ _ => handOffSpawn_given) mapped
  rw [List.map_flatten, given, List.flatMap_def]

end ResolveM

namespace ProcedureAnalysis

/-- The sections of a schedule report that tell of a procedure: its exit edges and, if it has
spawns, what is handed over at them. -/
def sections (analysis : ProcedureAnalysis) : ScheduleReport :=
  (analysis.name, analysis.edgeEntries) ::
    if analysis.handoffs.isEmpty then [] else [(analysis.name ++ ":spawn", analysis.handoffEntries)]

theorem addTo_eq (report : ScheduleReport) (analysis : ProcedureAnalysis) :
    analysis.addTo report = putAll report analysis.sections := by
  unfold addTo sections
  split <;> rfl

end ProcedureAnalysis

namespace ProgramAnalysis

/-- The sections that tell of all procedures, one procedure after the other. -/
def sections (program : ProgramAnalysis) : ScheduleReport :=
  program.procedures.flatMap ProcedureAnalysis.sections

/-- A schedule report is made by putting all sections under their names. -/
theorem scheduleReport_eq (program : ProgramAnalysis) : program.scheduleReport = putAll [] program.sections := by
  unfold scheduleReport sections putAll
  rw [List.foldl_flatMap]
  refine congrArg (fun add => program.procedures.foldl add []) ?_
  funext report analysis
  exact ProcedureAnalysis.addTo_eq report analysis

/-- What the schedule report of a program tells. -/
structure TellsSchedules (program : ProgramAnalysis) : Prop where
  /-- Every lowered procedure was analysed, hooks included. -/
  procedures : program.procedures.map ProcedureAnalysis.lowered = program.lowered.procedures
  /-- The section on the edges of a procedure has an entry for each edge of its scope graph. -/
  edges : ∀ analysis ∈ program.procedures, ∃ graph,
    analysis.lowered.procedure.scopeGraph analysis.lowered.bindingTypes = .ok graph ∧
      analysis.edgeEntries = graph.edges.map analysis.schedule.entry
  /-- The section on the spawns of a procedure has an entry for each argument with a known type. -/
  handoffs : ∀ analysis ∈ program.procedures,
    analysis.handoffs.map Handoff.given = analysis.lowered.procedure.body.spawns.flatMap Spawn.handed
  /-- Under each name the report has the last section with that name. -/
  last : ∀ name, program.scheduleReport.lookup name = program.sections.reverse.lookup name
  /-- All sections are in the report exactly when their names are all different. -/
  whole : program.scheduleReport = program.sections ↔ (program.sections.map Prod.fst).Nodup

/-- The schedule report of a program keeps the last section under each name, and all of them when
their names are different.  The sections have all exit edges of all procedures, and all that is
handed over at their spawns. -/
theorem schedules_told {file : Option String} {fuel : Nat} {policy : ContextPolicy} {source : String}
    {program : ProgramAnalysis} (analyzed : analyze file fuel policy source = .ok (.analyzed program)) :
    program.TellsSchedules := by
  obtain ⟨surface, parsed, run⟩ := analyze_eq_analyzed analyzed
  have reported := ofProgram_reported file fuel policy (Surface.parse_noStray parsed)
  rw [run] at reported
  obtain ⟨binder, before, progress, steps⟩ := ofProgram_eq_ok.mp run
  obtain ⟨analyses, all, each⟩ := ResolveM.analyzeProcedures_analyzes (extends_leadsQueries program.registry)
    steps.analyzes (steps.diagnostics ▸ reported)
  obtain rfl : program.procedures = analyses := steps.procedures.trans all
  have found (analysis : ProcedureAnalysis) (member : analysis ∈ program.procedures) :=
    TypeTree.exists_of_mem_forall₂ each analysis member
  constructor
  case procedures =>
    have same := List.forall₂_map_right_iff.mpr (each.imp fun lowered analysis found => found.1.symm)
    rwa [List.forall₂_eq_eq_eq, eq_comm] at same
  case edges =>
    intro analysis member
    obtain ⟨lowered, isLowered, rfl, graph, _, _, _, isGraph, scheduling, _⟩ := found analysis member
    obtain ⟨other, same, complete, -⟩ := (LoweredProgram.isLowered steps.lowers _ isLowered).graph
    obtain rfl := Except.ok.inj (isGraph.symm.trans same)
    refine ⟨graph, isGraph, ?_⟩
    rw [ProcedureAnalysis.edgeEntries, ResolveM.schedule_byEdge scheduling complete.edges, List.map_map]
    rfl
  case handoffs =>
    intro analysis member
    obtain ⟨lowered, isLowered, rfl, graph, _, _, _, _, _, handing, _⟩ := found analysis member
    exact ResolveM.handOffBlock_given handing
  case last =>
    intro name
    rw [scheduleReport_eq, lookup_putAll, List.append_nil]
  case whole => rw [scheduleReport_eq, putAll_eq_iff]

/-- A procedure with a local that is destroyed at its end, and with a spawn. -/
def spawningSource : String :=
  "type A = object \x7b \x7d\n" ++
  "proc work(n: Int) \x7b \x7d\n" ++
  "proc `=destroy`(a: A) \x7b \x7d\n" ++
  "proc main() \x7b var a: A; spawn work(1); \x7d\n"

/-- The program that the text is read as. -/
def spawningProgram : Surface.Program :=
  { types := [.object ⟨⟨1, 1⟩, "A", [], none, []⟩]
    procs := [
      ⟨⟨2, 1⟩, "work", false, [], [⟨⟨2, 11⟩, "n", .named ⟨2, 14⟩ "Int" []⟩], none, .mk ⟨2, 19⟩ []⟩,
      ⟨⟨3, 1⟩, "=destroy", true, [], [⟨⟨3, 17⟩, "a", .named ⟨3, 20⟩ "A" []⟩], none, .mk ⟨3, 23⟩ []⟩,
      ⟨⟨4, 1⟩, "main", false, [], [], none, .mk ⟨4, 13⟩ [
        .declare ⟨4, 15⟩ "a" (some (.named ⟨4, 22⟩ "A" [])) none true,
        .spawn ⟨4, 25⟩ (.call ⟨4, 31⟩ "work" [.integer ⟨4, 36⟩ 1])]⟩] }

theorem schedules_told_spawning :
    ∃ program, analyze none 9 .standard spawningSource = .ok (.analyzed program) ∧
      program.scheduleReport = program.sections ∧
      program.sections = [
        ("work", [.edge 0 .fallthrough (some 2) [] []]), ("=destroy", [.edge 0 .fallthrough (some 3) [] []]),
        ("main", [.edge 0 .fallthrough (some 4) ["a"] ["=destroy(a)"]]),
        ("main:spawn", [.handoff "work" 0 .structuralClone []])] := by
  have parsed : Surface.parse spawningSource = .ok spawningProgram := by cbv
  have answers : (ofProgram none 9 .standard spawningProgram).toOption.isSome = true := by decide +kernel
  have analyzed := analyze_found parsed answers
  have told := schedules_told analyzed
  exact ⟨_, analyzed, told.whole.mpr (by decide +kernel), by decide +kernel⟩

/-- All edges and spawns of the procedures of a program would be in its schedule report. -/
def SchedulesAreComplete : Prop :=
  ∀ (file : Option String) (fuel : Nat) (policy : ContextPolicy) (source : String) (program : ProgramAnalysis),
    analyze file fuel policy source = .ok (.analyzed program) →
    ∀ analysis ∈ program.procedures, ∀ entry ∈ analysis.edgeEntries ++ analysis.handoffEntries,
      ∃ told ∈ program.scheduleReport, entry ∈ told.2

/-- The spawns in a schedule report would belong to the procedure whose edges stand beside them. -/
def SchedulesArePaired : Prop :=
  ∀ (file : Option String) (fuel : Nat) (policy : ContextPolicy) (source : String) (program : ProgramAnalysis),
    analyze file fuel policy source = .ok (.analyzed program) →
    ∀ name edges handoffs, program.scheduleReport.lookup name = some edges →
      program.scheduleReport.lookup (name ++ ":spawn") = some handoffs →
      ∃ analysis ∈ program.procedures, edges = analysis.edgeEntries ∧ handoffs = analysis.handoffEntries

/-- Two hooks for the same operation, of which the first has a local to destroy and a spawn. -/
def twoHooksSource : String :=
  "type A = object \x7b \x7d\n" ++
  "type B = object \x7b \x7d\n" ++
  "proc work(n: Int) \x7b \x7d\n" ++
  "proc `=destroy`(a: A) \x7b var b: B; spawn work(1); \x7d\n" ++
  "proc `=destroy`(b: B) \x7b \x7d\n"

/-- The program that the text is read as. -/
def twoHooksProgram : Surface.Program :=
  { types := [.object ⟨⟨1, 1⟩, "A", [], none, []⟩, .object ⟨⟨2, 1⟩, "B", [], none, []⟩]
    procs := [
      ⟨⟨3, 1⟩, "work", false, [], [⟨⟨3, 11⟩, "n", .named ⟨3, 14⟩ "Int" []⟩], none, .mk ⟨3, 19⟩ []⟩,
      ⟨⟨4, 1⟩, "=destroy", true, [], [⟨⟨4, 17⟩, "a", .named ⟨4, 20⟩ "A" []⟩], none, .mk ⟨4, 23⟩ [
        .declare ⟨4, 25⟩ "b" (some (.named ⟨4, 32⟩ "B" [])) none true,
        .spawn ⟨4, 35⟩ (.call ⟨4, 41⟩ "work" [.integer ⟨4, 46⟩ 1])]⟩,
      ⟨⟨5, 1⟩, "=destroy", true, [], [⟨⟨5, 17⟩, "b", .named ⟨5, 20⟩ "B" []⟩], none, .mk ⟨5, 23⟩ []⟩] }

/-- The local of the first hook is never told of, and its spawn stands beside the edges of the second. -/
theorem not_schedulesAreComplete : ¬ SchedulesAreComplete ∧ ¬ SchedulesArePaired := by
  have parsed : Surface.parse twoHooksSource = .ok twoHooksProgram := by cbv
  have answers : (ofProgram none 9 .standard twoHooksProgram).toOption.isSome = true := by decide +kernel
  have analyzed := analyze_found parsed answers
  constructor
  · intro complete
    have lost : ∃ analysis ∈ (found none 9 .standard twoHooksProgram).procedures, ∃ entry ∈ analysis.edgeEntries,
        ∀ told ∈ (found none 9 .standard twoHooksProgram).scheduleReport, entry ∉ told.2 := by decide +kernel
    obtain ⟨analysis, member, entry, isEntry, untold⟩ := lost
    obtain ⟨part, isPart, inPart⟩ :=
      complete _ _ _ _ _ analyzed analysis member entry (List.mem_append_left _ isEntry)
    exact untold part isPart inPart
  · intro paired
    obtain ⟨analysis, member, edges, handoffs⟩ := paired _ _ _ _ _ analyzed "=destroy"
      [.edge 0 .fallthrough (some 5) [] []] [.handoff "work" 0 .structuralClone []]
      (by decide +kernel) (by decide +kernel)
    have apart : ∀ analysis ∈ (found none 9 .standard twoHooksProgram).procedures,
        analysis.edgeEntries = [.edge 0 .fallthrough (some 5) [] []] → analysis.handoffEntries = [] := by
      decide +kernel
    cases handoffs.trans (apart analysis member edges.symm)

end ProgramAnalysis
end LifecycleHooks

import LifecycleHooks.Handoff
import LifecycleHooks.Procedure.Context
import LifecycleHooks.Program.Lowered
import LifecycleHooks.Scope.Exit
import LifecycleHooks.Surface.Source

/-!
# Analysis of a source text

A source text is read, lowered and analysed: its hooks are bound, the operations
of its declared types are resolved, and for each procedure the sites of
destructible values are checked, the exit schedule is made and the arguments of
its spawns are handed over.  All diagnostics are collected in this order, those of
resolution last.
-/

namespace LifecycleHooks

/-- What was found about a procedure. -/
structure ProcedureAnalysis where
  lowered : LoweredProcedure
  sites : Sites
  schedule : ExitSchedule
  handoffs : List Handoff
deriving Repr

namespace ProcedureAnalysis

/-- The name of an analysed procedure. -/
def name (analysis : ProcedureAnalysis) : String := analysis.lowered.procedure.name

end ProcedureAnalysis

/-- What was found about a program that could be read. -/
structure ProgramAnalysis where
  lowered : LoweredProgram
  registry : Registry
  resolver : Resolver
  /-- The operations of the declared types. -/
  operations : List (TypeId × List Operation)
  procedures : List ProcedureAnalysis
  diagnostics : List Diagnostic
deriving Repr

/-- What was found about a source text. -/
inductive Analysis where
  | unreadable (diagnostics : List Diagnostic)
  | analyzed (program : ProgramAnalysis)
deriving Repr

namespace ProgramAnalysis

/-- The position of the first procedure with a name. -/
def procedureIndex (analysis : ProgramAnalysis) (name : String) : Except Fault Nat :=
  match analysis.procedures.findIdx? (·.name = name) with
  | some index => .ok index
  | none => .error (.unknownProcedure name)

end ProgramAnalysis

namespace Analysis

/-- All diagnostics of an analysis. -/
def diagnostics : Analysis → List Diagnostic
  | .unreadable found => found
  | .analyzed program => program.diagnostics

/-- Whether nothing was reported. -/
def isClean (analysis : Analysis) : Bool := analysis.diagnostics.isEmpty

/-- The codes of the diagnostics that have one. -/
def codes (analysis : Analysis) : List Code :=
  analysis.diagnostics.filterMap Diagnostic.code

end Analysis

/-- What was found so far while procedures are analysed in order, and whether a
broken scope graph ended the work. -/
structure Progress where
  procedures : List ProcedureAnalysis := []
  diagnostics : List Diagnostic := []

namespace ResolveM

/-- The diagnostic for a procedure whose scope graph is broken. -/
def brokenGraph (procedure : Procedure) (fault : Fault) : Diagnostic :=
  { phase := .scopeExit
    code := some .missingExitEdge
    message := s!"internal error: {fault.message}"
    span := procedure.note.span }

/-- Analyse procedures in order.  A broken scope graph ends the analysis; what was
reported while resolving stands before its diagnostic. -/
def analyzeProcedures (hooks : Registry) (fuel : Nat) (policy : ContextPolicy) :
    Progress → List LoweredProcedure → ResolveM Progress
  | progress, [] => do
      return { progress with
        diagnostics := progress.diagnostics ++ (← get).diagnostics }
  | progress, lowered :: rest => do
      let procedure := lowered.procedure
      let sites := procedure.sites
      let misplaced ← checkBlock hooks fuel policy sites procedure.body
      let diagnostics := progress.diagnostics ++ misplaced
      let graph ← Attempt.ofExcept (procedure.scopeGraph lowered.bindingTypes)
      match ← Attempt.outcome (schedule hooks fuel graph) with
      | .ok schedule => do
          let handoffs ← handOffBlock hooks fuel procedure.body
          analyzeProcedures hooks fuel policy
            { procedures := progress.procedures ++ [⟨lowered, sites, schedule, handoffs⟩]
              diagnostics := diagnostics } rest
      | .error (.missingExitEdge name defect) =>
          return { progress with
            diagnostics := diagnostics ++ (← get).diagnostics ++
              [brokenGraph procedure (.missingExitEdge name defect)] }
      | .error fault => throw fault

end ResolveM

namespace ProgramAnalysis

/-- Analyse a program that was read.  Types and procedures are searched for at
most `fuel` steps. -/
def ofProgram (file : Option String) (fuel : Nat) (policy : ContextPolicy)
    (program : Surface.Program) : Except Fault ProgramAnalysis := do
  let lowered ← LoweredProgram.ofProgram file fuel program
  match Binder.bindAll lowered.table lowered.hooks {} with
  | .error fault _ => throw fault
  | .ok () binder =>
      let hooks := binder.registry
      let analyze : ResolveM (List (TypeId × List Operation) × Progress) := do
        let operations ← ResolveM.operationTable hooks fuel (lowered.types.map Prod.snd)
        let progress ← ResolveM.analyzeProcedures hooks fuel policy
          { diagnostics := lowered.diagnostics ++ binder.diagnostics } lowered.procedures
        return (operations, progress)
      match analyze { table := lowered.table } with
      | .error fault _ => throw fault
      | .ok (operations, progress) resolver =>
          return { lowered := lowered
                   registry := hooks
                   resolver := resolver
                   operations := operations
                   procedures := progress.procedures
                   diagnostics := progress.diagnostics }

end ProgramAnalysis

/-- Analyse a source text. -/
def analyze (file : Option String) (fuel : Nat) (policy : ContextPolicy) (source : String) :
    Except Fault Analysis :=
  match Surface.parse source with
  | .error error => .ok (.unreadable [error.diagnostic file])
  | .ok program => Analysis.analyzed <$> ProgramAnalysis.ofProgram file fuel policy program

end LifecycleHooks

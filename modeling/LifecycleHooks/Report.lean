import LifecycleHooks.Analysis

/-!
# Reports

A report sums up an analysis for printing: for each declared type where each of
its operations comes from, and for each procedure its exit edges with the calls
that destroy locals, and the copies made at its spawns.
-/

namespace LifecycleHooks

/-- The operations of a type: the name of each hook with the word for where the
operation comes from. -/
abbrev TableRow := String × List (String × String)

/-- An entry of a schedule report. -/
inductive ScheduleEntry where
  | edge (id : EdgeId) (kind : ExitKind) (line : Option Int) (destroyed calls : List String)
  | handoff (callee : String) (index : Nat) (strategy : HandoffStrategy) (calls : List String)
deriving DecidableEq, Repr

/-- The entries of a schedule report, in named sections. -/
abbrev ScheduleReport := List (String × List ScheduleEntry)

/-- Values under names, to which a value is added.  A value under a name that is
there already replaces the earlier one in its place. -/
def putNamed {α : Type} (name : String) (value : α) : List (String × α) → List (String × α)
  | [] => [(name, value)]
  | (other, earlier) :: rest =>
      if other = name then (name, value) :: rest else (other, earlier) :: putNamed name value rest

theorem lookup_putNamed {α : Type} (name : String) (value : α) (values : List (String × α)) :
    (putNamed name value values).lookup name = some value := by
  induction values with
  | nil => simp [putNamed]
  | cons first rest ih =>
      obtain ⟨other, earlier⟩ := first
      by_cases same : other = name
      · simp [putNamed, same]
      · have differs : (name == other) = false := by simp [Ne.symm same]
        simp [putNamed, same, List.lookup_cons, differs, ih]

namespace ProgramAnalysis

/-- The rows of the operation table. -/
def tableRows (analysis : ProgramAnalysis) : Except Fault (List TableRow) :=
  analysis.operations.mapM fun (id, operations) => do
    let name ← analysis.resolver.table.spell id
    return (name, operations.map fun operation =>
      (operation.kind.hookName, operation.outcome.word))

end ProgramAnalysis

namespace ProcedureAnalysis

/-- The report on the exit edges of a procedure. -/
def edgeEntries (analysis : ProcedureAnalysis) : List ScheduleEntry :=
  analysis.schedule.byEdge.map fun (edge, destroys) =>
    .edge edge.id edge.kind edge.span.line (destroys.map (·.declared.name))
      (destroys.flatMap (callLines ·.plan))

/-- The report on the spawns of a procedure. -/
def handoffEntries (analysis : ProcedureAnalysis) : List ScheduleEntry :=
  analysis.handoffs.map fun handoff =>
    .handoff handoff.callee handoff.index handoff.strategy (copyLines handoff.plan)

/-- Add the report on a procedure.  Its spawns have a section of their own, if
there are any. -/
def addTo (report : ScheduleReport) (analysis : ProcedureAnalysis) : ScheduleReport :=
  let report := putNamed analysis.name analysis.edgeEntries report
  if analysis.handoffs.isEmpty then
    report
  else
    putNamed (analysis.name ++ ":spawn") analysis.handoffEntries report

end ProcedureAnalysis

/-- The schedule report on a program. -/
def ProgramAnalysis.scheduleReport (analysis : ProgramAnalysis) : ScheduleReport :=
  analysis.procedures.foldl ProcedureAnalysis.addTo []

namespace Analysis

/-- The rows of the operation table, of which an unreadable text has none. -/
def tableRows : Analysis → Except Fault (List TableRow)
  | .unreadable _ => .ok []
  | .analyzed program => program.tableRows

/-- The schedule report, which is empty for an unreadable text. -/
def scheduleReport : Analysis → ScheduleReport
  | .unreadable _ => []
  | .analyzed program => program.scheduleReport

end Analysis
end LifecycleHooks

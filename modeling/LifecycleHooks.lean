import LifecycleHooks.Main
import LifecycleHooks.Scope.Edit
import LifecycleHooks.Proofs.Attempt
import LifecycleHooks.Proofs.Recurrence
import LifecycleHooks.Proofs.Budget
import LifecycleHooks.Proofs.Hook.Acceptance
import LifecycleHooks.Proofs.Hook.Patterns
import LifecycleHooks.Proofs.Lifting.Agreement
import LifecycleHooks.Proofs.Lifting.Answering
import LifecycleHooks.Proofs.Lifting.CallOrder
import LifecycleHooks.Proofs.Lifting.CloneOrder
import LifecycleHooks.Proofs.Lifting.Confinement
import LifecycleHooks.Proofs.Lifting.CopiedStorage
import LifecycleHooks.Proofs.Lifting.CopyAgreement
import LifecycleHooks.Proofs.Lifting.CopyRecursion
import LifecycleHooks.Proofs.Lifting.Correctness
import LifecycleHooks.Proofs.Lifting.EffectiveOperation
import LifecycleHooks.Proofs.Lifting.Exploration
import LifecycleHooks.Proofs.Lifting.Extension
import LifecycleHooks.Proofs.Lifting.HookPath
import LifecycleHooks.Proofs.Lifting.Judging
import LifecycleHooks.Proofs.Lifting.LayeredVerdicts
import LifecycleHooks.Proofs.Lifting.Likeness
import LifecycleHooks.Proofs.Lifting.SeparateKinds
import LifecycleHooks.Proofs.Lifting.PathOrder
import LifecycleHooks.Proofs.Lifting.PlainRecursion
import LifecycleHooks.Proofs.Lifting.PlannedCalls
import LifecycleHooks.Proofs.Lifting.Planning
import LifecycleHooks.Proofs.Lifting.Queries
import LifecycleHooks.Proofs.Lifting.Reachability
import LifecycleHooks.Proofs.Lifting.Reasons
import LifecycleHooks.Proofs.Lifting.Search
import LifecycleHooks.Proofs.Lifting.Serving
import LifecycleHooks.Proofs.Lifting.Steadiness
import LifecycleHooks.Proofs.Lifting.UnfoldedPlans
import LifecycleHooks.Proofs.Lifting.Verdict
import LifecycleHooks.Proofs.Procedure.Binding
import LifecycleHooks.Proofs.Procedure.Numbering
import LifecycleHooks.Proofs.Program.Lowering
import LifecycleHooks.Proofs.Scope.Completeness
import LifecycleHooks.Proofs.Scope.Execution
import LifecycleHooks.Proofs.Scope.ExitSafety
import LifecycleHooks.Proofs.Scope.Frames
import LifecycleHooks.Proofs.Scope.LocalSafety
import LifecycleHooks.Proofs.Scope.Release
import LifecycleHooks.Proofs.Scope.Schedule
import LifecycleHooks.Proofs.Scope.Walk
import LifecycleHooks.Proofs.Types.Building
import LifecycleHooks.Proofs.Types.Extension
import LifecycleHooks.Proofs.Types.Layers
import LifecycleHooks.Proofs.Types.Regular
import LifecycleHooks.Proofs.Types.Tree
import LifecycleHooks.Proofs.Types.Unfolding
import LifecycleHooks.Proofs.Types.WellFormed
import LifecycleHooks.Proofs.Hook.Binding
import LifecycleHooks.Proofs.Lifting.FurtherHooks
import LifecycleHooks.Proofs.Hook.Signatures
import LifecycleHooks.Proofs.Lifting.Repetition
import LifecycleHooks.Proofs.Procedure.Declarations
import LifecycleHooks.Proofs.Scope.Ownership
import LifecycleHooks.Proofs.Program.Initializers
import LifecycleHooks.Proofs.Program.Inquiries
import LifecycleHooks.Proofs.Safety
import LifecycleHooks.Proofs.Types.Making
import LifecycleHooks.Proofs.Program.Declaring
import LifecycleHooks.Proofs.Procedure.Typing
import LifecycleHooks.Proofs.Program.Typing
import LifecycleHooks.Proofs.Types.Variables
import LifecycleHooks.Proofs.Types.Matching
import LifecycleHooks.Proofs.Program.Calls
import LifecycleHooks.Proofs.Program.Runs
import LifecycleHooks.Proofs.Lifting.QuerySafety
import LifecycleHooks.Proofs.Program.Soundness
import LifecycleHooks.Proofs.Types.Bodies
import LifecycleHooks.Proofs.Types.FieldLookup
import LifecycleHooks.Proofs.Types.Canonical
import LifecycleHooks.Proofs.Types.Labels
import LifecycleHooks.Proofs.Types.Renaming
import LifecycleHooks.Proofs.Program.Accounts
import LifecycleHooks.Proofs.Program.Ledgers
import LifecycleHooks.Proofs.Program.DeclarationOrder
import LifecycleHooks.Proofs.Surface.Grammar
import LifecycleHooks.Proofs.Surface.Reading
import LifecycleHooks.Proofs.Surface.TypeReading
import LifecycleHooks.Proofs.Surface.Viability
import LifecycleHooks.Proofs.Surface.Lookahead
import LifecycleHooks.Proofs.Surface.ExprReading
import LifecycleHooks.Proofs.Surface.StmtReading
import LifecycleHooks.Proofs.Surface.ProgramReading
import LifecycleHooks.Proofs.Surface.Spawning
import LifecycleHooks.Proofs.Surface.Lexing
import LifecycleHooks.Proofs.Surface.Acceptance
import LifecycleHooks.Proofs.Surface.SyntaxErrors
import LifecycleHooks.Proofs.Procedure.Sites
import LifecycleHooks.Proofs.Procedure.Context
import LifecycleHooks.Proofs.Lifting.ShallowContents
import LifecycleHooks.Proofs.Lifting.FoundedVerdicts
import LifecycleHooks.Proofs.Lifting.Reports
import LifecycleHooks.Proofs.Lifting.SelfContainment
import LifecycleHooks.Proofs.Lifting.FalseAlarms
import LifecycleHooks.Proofs.Lifting.Convergence
import LifecycleHooks.Proofs.Lifting.Dependence
import LifecycleHooks.Proofs.Lifting.Termination
import LifecycleHooks.Proofs.Lifting.Components
import LifecycleHooks.Proofs.Lifting.RecursionReports
import LifecycleHooks.Proofs.Types.Adding
import LifecycleHooks.Proofs.Program.Keeping
import LifecycleHooks.Proofs.Program.Placement
import LifecycleHooks.Proofs.Program.RecursionPlaces
import LifecycleHooks.Proofs.Types.Composition
import LifecycleHooks.Proofs.Lifting.Failures
import LifecycleHooks.Proofs.Procedure.Places
import LifecycleHooks.Proofs.Scope.Following
import LifecycleHooks.Proofs.Scope.Exits
import LifecycleHooks.Proofs.Procedure.Lexical
import LifecycleHooks.Proofs.Program.Naming
import LifecycleHooks.Proofs.Scope.LiveLocals
import LifecycleHooks.Proofs.Program.ResultTargets
import LifecycleHooks.Proofs.Lifting.FindingOrder
import LifecycleHooks.Proofs.Lifting.ListedCycles
import LifecycleHooks.Proofs.Answers
import LifecycleHooks.Proofs.Types.Saturation
import LifecycleHooks.Proofs.Types.Scoping
import LifecycleHooks.Proofs.Program.Scoping
import LifecycleHooks.Proofs.Program.Concreteness
import LifecycleHooks.Proofs.Scope.Verification
import LifecycleHooks.Proofs.Lifting.EmptyPlans
import LifecycleHooks.Proofs.Lifting.PlaceText
import LifecycleHooks.Proofs.Types.Legibility
import LifecycleHooks.Proofs.Lifting.KeptTables
import LifecycleHooks.Proofs.Lifting.PlanTree
import LifecycleHooks.Proofs.Lifting.PlaceSteps
import LifecycleHooks.Proofs.Lifting.DistinctPlaces
import LifecycleHooks.Proofs.Surface.Names
import LifecycleHooks.Proofs.Program.Legibility
import LifecycleHooks.Proofs.Program.PlanPlaces
import LifecycleHooks.Proofs.Lifting.IndexText
import LifecycleHooks.Proofs.Lifting.ElementLoops
import LifecycleHooks.Proofs.Program.NestedLoops
import LifecycleHooks.Proofs.Types.Remembering
import LifecycleHooks.Proofs.Program.ScheduleReports
import LifecycleHooks.Proofs.CommandLine.Runs
import LifecycleHooks.Proofs.Types.Recurrence
import LifecycleHooks.Proofs.Lifting.BackEdges
import LifecycleHooks.Proofs.Lifting.Recurrence
import LifecycleHooks.Proofs.Lifting.FailedQueries
import LifecycleHooks.Proofs.Procedure.Nodes
import LifecycleHooks.Proofs.Program.ComputedTypes
import LifecycleHooks.Proofs.Program.SideTables

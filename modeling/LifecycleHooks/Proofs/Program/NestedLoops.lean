import LifecycleHooks.Proofs.Lifting.ElementLoops
import LifecycleHooks.Proofs.Program.PlanPlaces

/-!
# Loops of the plans for a program

A plan for a type of a program calls each hook once if each index of a place is read as that of
its own loop.  All indices have one name, so that a reader who goes by names takes those of outer
loops for the innermost one.
-/

namespace LifecycleHooks
namespace LoweredProgram

open Attempt Resolver ResolveM

section Loops

variable {source : String} {program : Surface.Program} {file : Option String} {fuel : Nat}
  {lowered : LoweredProgram} {hooks : Registry} {resolver : Resolver} {id : TypeId} {place : String}

/-- Carried out, the plan for a type of a program that reaches finitely many types calls the hook of
every value that the operation comes to exactly once, in the order in which it comes to them, except
for what it leaves to calls of lifted operations.  This holds for all lengths of the sequences when each
index belongs to a loop of its own, and when all belong to the innermost loop, as their name says, it
still holds if no loop is inside of another one. -/
theorem plan_performs_once (parsed : Surface.parse source = .ok program)
    (lowers : ofProgram file fuel program = .ok lowered) (queried : Queried hooks lowered.table resolver)
    (frozen : hooks.frozen = true) (has : resolver.table.Has id) (finite : (resolver.reach id).Finite)
    (plain : IsPlain place) (kind : OpKind) :
    Settles (fun plan final => ∀ lengths,
        PerformsOnce hooks kind final lengths id place (performed readByLoop lengths plan []) ∧
        (loopDepth plan ≤ 1 → PerformsOnce hooks kind final lengths id place (performed readByName lengths plan [])))
      (fun fuel => expand hooks fuel id kind place) resolver := by
  obtain ⟨regular, legible⟩ := table_of_parse parsed lowers
  exact expand_performs frozen finite (queried.prepared regular has) (queried.legible legible) plain kind

end Loops

/-- Rows of rows of handles. -/
def gridSource : String :=
  "type Handle = object \x7b \x7d\n" ++
  "type Grid = object \x7b rows: seq[seq[Handle]] \x7d\n"

/-- The program that the text is read as. -/
def gridProgram : Surface.Program where
  types := [
    .object ⟨⟨1, 1⟩, "Handle", [], none, []⟩,
    .object ⟨⟨2, 1⟩, "Grid", [], none,
      [⟨⟨2, 22⟩, "rows", .wrap ⟨2, 28⟩ .seq (.wrap ⟨2, 32⟩ .seq (.named ⟨2, 36⟩ "Handle" []))⟩]⟩]
  procs := []

theorem parse_grid : Surface.parse gridSource = .ok gridProgram := by cbv

/-- What the plan for the rows does if each of them has two elements. -/
def gridCalls (read : List Nat → String → String) (plan : List CallNode) : List CallNode :=
  performed read (fun _ => 2) plan []

/-- The plan for the rows has two loops and calls hooks only.  Read by name it calls two of them twice and
the other two never. -/
def GridPlanned (lowered : LoweredProgram) (plan : List CallNode) : Prop :=
  (lowered.table.get? 7).isSome = true ∧ leadsToEachOther lowered.table [4, 6, 7] = true ∧ loopDepth plan = 2 ∧
    (gridCalls readByLoop plan).map CallNode.line =
      ["=destroy(x[0][0])", "=destroy(x[0][1])", "=destroy(x[1][0])", "=destroy(x[1][1])"] ∧
    (gridCalls readByName plan).map CallNode.line =
      ["=destroy(x[0][0])", "=destroy(x[1][1])", "=destroy(x[0][0])", "=destroy(x[1][1])"] ∧
    (∀ call ∈ gridCalls readByLoop plan, call.isHook) ∧ ∀ call ∈ gridCalls readByName plan, call.isHook

instance (lowered : LoweredProgram) (plan : List CallNode) : Decidable (GridPlanned lowered plan) := by
  unfold GridPlanned
  infer_instance

theorem lower_grid : ∃ lowered plan final, ofProgram none 9 gridProgram = .ok lowered ∧
    expand closingHooks 9 7 .destroy "x" { table := lowered.table } = .ok plan final ∧ GridPlanned lowered plan := by
  have computed : ((ofProgram none 9 gridProgram).toOption.bind fun lowered =>
      ((expand closingHooks 9 7 .destroy "x").result? { table := lowered.table }).map fun plan =>
        decide (GridPlanned lowered plan)) = some true := by
    decide +kernel
  obtain ⟨lowered, isLowered, computed⟩ := Option.bind_eq_some_iff.mp computed
  obtain ⟨plan, plans, planned⟩ := Option.map_eq_some_iff.mp computed
  cases lowers : ofProgram none 9 gridProgram with
  | error fault => simp [lowers, Except.toOption] at isLowered
  | ok found =>
      obtain rfl : found = lowered := by simpa [lowers, Except.toOption] using isLowered
      exact ⟨found, plan, _, rfl, run_of_result? plans, of_decide_eq_true planned⟩

theorem finite_grid {lowered : LoweredProgram} {plan : List CallNode}
    (lowers : ofProgram none 9 gridProgram = .ok lowered) (planned : GridPlanned lowered plan) :
    (reach { table := lowered.table } 7).Finite := by
  have intact : Intact { table := lowered.table } := ⟨(table_of_parse parse_grid lowers).1, by simp, by simp⟩
  exact finite_reach intact (by decide) planned.2.1

theorem plan_performs_once_grid : ∃ lowered, ofProgram none 9 gridProgram = .ok lowered ∧
    (reach { table := lowered.table } 7).Finite ∧
    Settles (fun plan final => PerformsOnce closingHooks .destroy final (fun _ => 2) 7 "x" (gridCalls readByLoop plan))
      (fun fuel => expand closingHooks fuel 7 .destroy "x") { table := lowered.table } := by
  obtain ⟨lowered, plan, final, lowers, -, planned⟩ := lower_grid
  have finite := finite_grid lowers planned
  have fresh : Queried closingHooks lowered.table { table := lowered.table } := .started
  refine ⟨lowered, lowers, finite, ?_⟩
  exact (plan_performs_once parse_grid lowers fresh rfl planned.1 finite (by decide) .destroy).mono
    fun _ _ _ _ performs => (performs fun _ => 2).1

/-- Every plan would call each hook once with its indices read by name. -/
def NamesPerformOnce : Prop :=
  ∀ (source : String) (program : Surface.Program) (file : Option String) (fuel : Nat) (lowered : LoweredProgram)
    (hooks : Registry) (resolver : Resolver) (id : TypeId) (place : String) (kind : OpKind),
    Surface.parse source = .ok program → ofProgram file fuel program = .ok lowered →
    Queried hooks lowered.table resolver → hooks.frozen = true → resolver.table.Has id → (resolver.reach id).Finite →
    IsPlain place → Settles (fun plan final => ∀ lengths,
        PerformsOnce hooks kind final lengths id place (performed readByName lengths plan []))
      (fun fuel => expand hooks fuel id kind place) resolver

theorem not_namesPerformOnce : ¬ NamesPerformOnce := by
  intro always
  obtain ⟨lowered, plan, final, lowers, run, planned⟩ := lower_grid
  have finite := finite_grid lowers planned
  have fresh : Queried closingHooks lowered.table { table := lowered.table } := .started
  have steady := expandWithin_steady closingHooks .destroy [] 7 "x"
  have plain : IsPlain "x" := by decide
  have settles := always _ _ _ _ _ _ _ 7 "x" .destroy parse_grid lowers fresh rfl planned.1 finite plain
  obtain ⟨marked, isMarked, lists⟩ := steady.brings settles run fun _ => 2
  have calls {entry : List Nat × CallNode} (member : entry ∈ marked) : entry.2 ∈ gridCalls readByName plan := by
    rw [gridCalls, ← isMarked]
    exact List.mem_map_of_mem member
  obtain ⟨regular, legible⟩ := table_of_parse parse_grid lowers
  have performs := expand_performs rfl finite (fresh.prepared regular planned.1) legible plain .destroy
  obtain ⟨⟨right, isRight, listsRight⟩, -⟩ := steady.brings performs run fun _ => 2
  obtain ⟨-, -, -, byLoop, byName, hooksByLoop, hooksByName⟩ := planned
  -- The second element of the first row is met, but never called by name.
  have met : "=destroy(x[0][1])" ∈ (gridCalls readByLoop plan).map CallNode.line := by simp [byLoop]
  obtain ⟨call, isCall, isLine⟩ := List.mem_map.mp met
  have isMet := isCall
  rw [gridCalls, ← isRight] at isMet
  obtain ⟨⟨path, node⟩, isEntry, rfl⟩ := List.mem_map.mp isMet
  rcases lists.complete path node (hooksByLoop node isCall) (listsRight.sound _ isEntry) with called | ⟨cut, isCut, noHook, -⟩
  · have named : node.line ∈ (gridCalls readByName plan).map CallNode.line := List.mem_map_of_mem (calls called)
    rw [byName, isLine] at named
    simp at named
  · exact noHook (hooksByName cut.2 (calls isCut))

end LoweredProgram
end LifecycleHooks

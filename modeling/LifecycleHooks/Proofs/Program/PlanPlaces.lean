import LifecycleHooks.Proofs.Lifting.DistinctPlaces
import LifecycleHooks.Proofs.Program.Legibility
import LifecycleHooks.Proofs.Program.Soundness

/-!
# Plans for the types of a program

A resolver over the table of a lowered program can be asked any queries.  Its table stays
legible, so no part of a value is named twice in a plan for one of its types.
-/

namespace LifecycleHooks
namespace Resolver

open ResolveM

/-- The resolvers over a table that were asked any queries since they were started, and nothing
else happened to the table. -/
inductive Queried (hooks : Registry) (table : TypeTable) : Resolver → Prop where
  | started : Queried hooks table { table := table }
  | asked {resolver : Resolver} (earlier : Queried hooks table resolver) (fuel : Nat) (query : Query) :
      Queried hooks table ((query.ask hooks fuel).finish resolver)

variable {hooks : Registry} {table : TypeTable} {resolver : Resolver}

theorem Queried.reached (queried : Queried hooks table resolver) : Reached hooks { table := table } resolver := by
  induction queried with
  | started => exact .start
  | asked earlier fuel query ih => exact ih.asked fuel query

/-- What all queries lead along holds between the fresh resolver and the one that was asked. -/
theorem Queried.relates {relation : Resolver → Resolver → Prop} [IsPreorder Resolver relation]
    (leads : LeadsQueries hooks relation relation) (queried : Queried hooks table resolver) :
    relation { table := table } resolver := by
  induction queried with
  | started => exact refl_of relation _
  | @asked middle earlier fuel query ih =>
      have asks : (query.ask hooks fuel).Preserves relation := query.ask_leads leads fuel
      exact trans_of relation ih (asks.finish middle)

theorem Queried.legible (queried : Queried hooks table resolver) (legible : table.Legible) : resolver.table.Legible :=
  queried.relates (legible_leadsQueries hooks) legible

theorem Queried.prepared (queried : Queried hooks table resolver) (regular : table.Regular) {id : TypeId}
    (has : resolver.table.Has id) : resolver.Prepared hooks (resolver.reach id) [id] := by
  have fresh : Intact { table := table } := ⟨regular, by simp, by simp⟩
  obtain ⟨intact, -⟩ := queried.relates (intact_leadsQueries hooks) fresh
  exact
    { confined := confined_reach intact queried.reached.extends_.judging id
      ready := queried.reached.ready
      within := List.forall_mem_singleton.mpr ⟨has, .refl⟩ }

end Resolver

namespace LoweredProgram

open Attempt Resolver ResolveM

variable {source : String} {program : Surface.Program} {file : Option String} {fuel : Nat}
  {lowered : LoweredProgram} {hooks : Registry} {resolver : Resolver} {id : TypeId} {place : String}

/-- The table of a program that was read and lowered is regular and legible. -/
theorem table_of_parse (parsed : Surface.parse source = .ok program) (lowers : ofProgram file fuel program = .ok lowered) :
    lowered.table.Regular ∧ lowered.table.Legible := by
  have sound := ofProgram_sound file fuel (Surface.parse_noStray parsed)
  rw [lowers] at sound
  exact ⟨sound.proper.toRegular, ofProgram_legible (Surface.isNamed_of_parse parsed) lowers⟩

/-- No part of a value is named twice in a plan.  Whatever was asked before, the plans for a type
of a program that reaches finitely many types call hooks and lifted operations at places that all
differ, and copy and clone at places that all differ. -/
theorem plan_places_distinct (parsed : Surface.parse source = .ok program)
    (lowers : ofProgram file fuel program = .ok lowered) (queried : Queried hooks lowered.table resolver)
    (frozen : hooks.frozen = true) (has : resolver.table.Has id) (finite : (resolver.reach id).Finite)
    (plain : IsPlain place) :
    (∀ kind, Settles (fun plan _ => ((plannedCalls plan).map fun call => call.node.place).Nodup)
      (fun fuel => expand hooks fuel id kind place) resolver) ∧
    Settles (fun plan _ => ((copyStops plan).map CopyStop.place).Nodup)
      (fun fuel => copyPlan hooks fuel id place) resolver := by
  obtain ⟨regular, legible⟩ := table_of_parse parsed lowers
  have prepared := queried.prepared regular has
  have stillLegible := queried.legible legible
  exact ⟨fun kind => expand_places frozen finite prepared stillLegible plain kind,
    copyPlan_places frozen finite prepared stillLegible plain⟩

/-- A shelf that is converted to a handle, and has one in a field and two in an array. -/
def shelfSource : String :=
  "type Handle = object \x7b \x7d\n" ++
  "type Shelf = object of Handle \x7b left: Handle, rest: array[2, Handle] \x7d\n"

/-- The program that the text is read as. -/
def shelfProgram : Surface.Program :=
  let handle (column : Nat) : Surface.TypeExpr := .named ⟨2, column⟩ "Handle" []
  { types := [
      .object ⟨⟨1, 1⟩, "Handle", [], none, []⟩,
      .object ⟨⟨2, 1⟩, "Shelf", [], some (handle 24),
        [⟨⟨2, 33⟩, "left", handle 39⟩, ⟨⟨2, 47⟩, "rest", .array ⟨2, 53⟩ 2 (handle 62)⟩]⟩]
    procs := [] }

/-- The hook that destroys a handle. -/
def closingHooks : Registry where
  entries := [{ kind := .destroy, target := 4, params := [], result := 3, impl := "close" }]
  frozen := true

theorem plan_places_distinct_shelf :
    ∃ lowered, Surface.parse shelfSource = .ok shelfProgram ∧ ofProgram none 9 shelfProgram = .ok lowered ∧
      (reach { table := lowered.table } 5).Finite ∧
      Settles (fun plan _ => ((plannedCalls plan).map fun call => call.node.place).Nodup)
        (fun fuel => expand closingHooks fuel 5 .destroy "x") { table := lowered.table } := by
  have parsed : Surface.parse shelfSource = .ok shelfProgram := by cbv
  have closed : (ofProgram none 9 shelfProgram).toOption.map (fun lowered =>
      leadsToEachOther lowered.table [4, 5, 6] && (lowered.table.get? 5).isSome) = some true := by decide +kernel
  cases lowers : ofProgram none 9 shelfProgram with
  | error fault =>
      rw [lowers] at closed
      cases closed
  | ok lowered =>
      rw [lowers] at closed
      obtain ⟨leads, isShelf⟩ := Bool.and_eq_true_iff.mp (Option.some.inj closed)
      have intact : Intact { table := lowered.table } := ⟨(table_of_parse parsed lowers).1, by simp, by simp⟩
      have finite : (reach { table := lowered.table } 5).Finite := finite_reach intact (by decide) leads
      have fresh : Queried closingHooks lowered.table { table := lowered.table } := .started
      exact ⟨lowered, parsed, rfl, finite,
        (plan_places_distinct parsed lowers fresh rfl isShelf finite (by decide)).1 .destroy⟩

end LoweredProgram
end LifecycleHooks

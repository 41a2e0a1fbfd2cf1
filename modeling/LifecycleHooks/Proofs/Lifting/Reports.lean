import LifecycleHooks.Proofs.Lifting.Answering

/-!
# What a resolver has reported

Each diagnostic of a resolver tells of a generic object that was judged to grow, or of the
cycle of a type that contains itself by value.  The types of all reports are marked, and no
report is made about a type that is marked.  Whatever is asked, answered or not, what a
resolver has reported can be accounted for in this way.
-/

namespace LifecycleHooks

open Attempt ResolveM TypeTable Resolver

/-- What a diagnostic of a resolver tells of. -/
inductive Report where
  | growth (head : TypeId)
  | cycle (id : TypeId) (members : List TypeId)
deriving DecidableEq

namespace Report

/-- The type whose declaration a report points to. -/
def subject : Report → TypeId
  | .growth head => head
  | .cycle id _ => id

/-- The types that count as reported with a report. -/
def members : Report → List TypeId
  | .growth head => [head]
  | .cycle _ members => members

/-- The diagnostic for a generic object that grows. -/
def growthDiagnostic (name : String) (span : Span) : Diagnostic :=
  { phase := .resolve
    code := some .unresolvableRecursion
    message := s!"recursive generic type '{name}' contains ever larger instances of itself; " ++
      "its structure never ends"
    span := span }

/-- The diagnostic for a cycle of types. -/
def cycleDiagnostic (names : List String) (span : Span) : Diagnostic :=
  let first := names.headD ""
  let path := " -> ".intercalate (names ++ [first])
  { phase := .resolve
    code := some .unresolvableRecursion
    message := s!"recursive type '{first}' contains itself by value ({path}); " ++
      "break the cycle with `ref`, `ptr` or `seq`"
    span := span }

/-- A diagnostic puts a report in words: the spellings and the place of its types. -/
inductive Worded (table : TypeTable) : Report → Diagnostic → Prop where
  | growth {head : TypeId} {name : String} {span : Span} (spelled : table.spell head = .ok name)
      (placed : table.declaredAt head = .ok span) :
      Worded table (.growth head) (growthDiagnostic name span)
  | cycle {id : TypeId} {members : List TypeId} {names : List String} {span : Span}
      (spelled : List.Forall₂ (fun member name => table.spell member = .ok name) members names)
      (placed : table.declaredAt id = .ok span) :
      Worded table (.cycle id members) (cycleDiagnostic names span)

/-- The resolver found what a report tells. -/
def Stands (resolver : Resolver) : Report → Prop
  | .growth head => resolver.growth.lookup head = some true
  | .cycle id members => (id, members) ∈ resolver.cycles

variable {table larger : TypeTable} {report : Report} {diagnostic : Diagnostic}

theorem Worded.code (worded : Worded table report diagnostic) : diagnostic.code = some .unresolvableRecursion := by
  cases worded <;> rfl

theorem Worded.extends_ (worded : Worded table report diagnostic) (extends_ : table.Extends larger) :
    Worded larger report diagnostic := by
  cases worded with
  | growth spelled placed =>
      exact .growth (stable_spell _ _ _ _ extends_ spelled) (stable_declaredAt _ _ _ _ extends_ placed)
  | cycle spelled placed =>
      exact .cycle (spelled.imp fun _ _ spelled => stable_spell _ _ _ _ extends_ spelled)
        (stable_declaredAt _ _ _ _ extends_ placed)

end Report

namespace Resolver

variable {resolver later : Resolver} {reports : List Report}

/-- The reports that a resolver has made, in order. -/
structure Booked (resolver : Resolver) (reports : List Report) : Prop where
  told : List.Forall₂ (Report.Worded resolver.table) reports resolver.diagnostics
  stand : ∀ report ∈ reports, report.Stands resolver
  marked : ∀ id, id ∈ resolver.reported ↔ ∃ report ∈ reports, id ∈ report.members
  apart : reports.Pairwise fun earlier later => later.subject ∉ earlier.members

/-- A resolver that learned, but reported nothing. -/
structure Silent (resolver later : Resolver) : Prop extends Learns resolver later where
  cycles : resolver.cycles ⊆ later.cycles
  reported : later.reported = resolver.reported
  diagnostics : later.diagnostics = resolver.diagnostics

instance : IsPreorder Resolver Silent where
  refl resolver := ⟨refl_of Learns resolver, List.Subset.refl _, rfl, rfl⟩
  trans _ _ _ first second :=
    ⟨trans_of Learns first.toLearns second.toLearns, fun _ member => second.cycles (first.cycles member),
      second.reported.trans first.reported, second.diagnostics.trans first.diagnostics⟩

theorem Judges.silent (judges : resolver.Judges later) : resolver.Silent later :=
  { judges with
    cycles := judges.cycles ▸ List.Subset.refl _
    reported := judges.reported
    diagnostics := judges.diagnostics }

theorem Booked.silent (booked : resolver.Booked reports) (silent : resolver.Silent later) : later.Booked reports where
  told := by
    rw [silent.diagnostics]
    exact booked.told.imp fun _ _ worded => worded.extends_ silent.table
  stand report member := by
    have stands := booked.stand report member
    cases report with
    | growth head => exact silent.growth head true stands
    | cycle id members => exact silent.cycles stands
  marked := silent.reported ▸ booked.marked
  apart := booked.apart

/-- A further report is booked at the end. -/
theorem Booked.report {diagnostic : Diagnostic} (report : Report) (booked : resolver.Booked reports)
    (new : report.subject ∉ resolver.reported) (stands : report.Stands resolver)
    (worded : report.Worded resolver.table diagnostic) :
    Booked { resolver with
      reported := report.members ++ resolver.reported
      diagnostics := resolver.diagnostics ++ [diagnostic] } (reports ++ [report]) where
  told := List.rel_append booked.told (.cons worded .nil)
  stand other member := by
    rcases List.mem_append.mp member with before | now
    · have stands := booked.stand other before
      cases other <;> exact stands
    · obtain rfl := List.mem_singleton.mp now
      cases other <;> exact stands
  marked id := by
    simp only [List.mem_append, booked.marked, List.mem_singleton]
    constructor
    · rintro (now | ⟨other, before, inside⟩)
      · exact ⟨report, .inr rfl, now⟩
      · exact ⟨other, .inl before, inside⟩
    · rintro ⟨other, before | rfl, inside⟩
      · exact .inr ⟨other, before, inside⟩
      · exact .inl inside
  apart := by
    refine List.pairwise_append.mpr ⟨booked.apart, List.pairwise_singleton _ _, fun earlier before later now => ?_⟩
    obtain rfl := List.mem_singleton.mp now
    exact fun inside => new ((booked.marked _).mpr ⟨earlier, before, inside⟩)

/-- An intact resolver whose reports are booked. -/
def Accounted (resolver : Resolver) : Prop := resolver.Intact ∧ ∃ reports, resolver.Booked reports

theorem Accounted.silent (accounted : resolver.Accounted) (silent : resolver.Silent later)
    (stays : StaysIntact resolver later) : later.Accounted := by
  obtain ⟨intact, reports, booked⟩ := accounted
  exact ⟨(stays intact).1, reports, booked.silent silent⟩

theorem judges_accounted {Result : Type} {action : ResolveM Result} (judges : action.Preserves Judges) :
    action.Preserves (Lasts Accounted) :=
  judges.mono (fun _ _ judges accounted => accounted.silent judges.silent judges.staysIntact)
    fun _ _ judges accounted => accounted.silent judges.silent judges.staysIntact

theorem exploreOnce_silent (fuel : Nat) (id : TypeId) : (exploreOnce fuel id).Preserves Silent := by
  refine preserves_iff.mpr fun resolver => ?_
  change resolver.Silent (finish (if id ∉ resolver.visited then _ else _) resolver)
  split
  · rename_i new
    have explored := explore_explores fuel id resolver new
    change resolver.Silent (finish (andFinally (explore fuel id) Resolver.settle) resolver)
    rw [finish_andFinally]
    exact
      { table := explored.table
        growth := explored.growth
        cycles := fun entry member => List.mem_append_left _ (explored.cycles ▸ member)
        reported := explored.reported
        diagnostics := explored.diagnostics }
  · exact refl_of Silent resolver

end Resolver

namespace ResolveM

variable {resolver : Resolver} {head id : TypeId}

/-- A growing object that was not reported is reported. -/
theorem reportGrowth_accounted (accounted : resolver.Accounted) (has : resolver.table.Has head)
    (grows : resolver.growth.lookup head = some true) : ((reportGrowth head).finish resolver).Accounted := by
  obtain ⟨intact, reports, booked⟩ := accounted
  obtain ⟨name, spelled⟩ := spell_answers intact.regular.toWellFormed intact.regular.paramsKnown has
  obtain ⟨span, placed⟩ := declaredAt_answers intact.regular.toWellFormed has
  by_cases before : head ∈ resolver.reported
  · rw [finish_of_ok (reportGrowth_run before)]
    exact ⟨intact, reports, booked⟩
  · unfold reportGrowth finish
    rw [get_bind_run, if_pos before, modify_bind_run, bind_run_of_ok (ask_eq_ok.mpr ⟨spelled, rfl⟩),
      bind_run_of_ok (ask_eq_ok.mpr ⟨placed, rfl⟩)]
    exact ⟨⟨intact.regular, intact.links, intact.cycles⟩, _, booked.report (.growth head) before grows (.growth spelled placed)⟩

theorem spells_run {members : List TypeId} (intact : resolver.Intact)
    (has : ∀ member ∈ members, resolver.table.Has member) :
    ∃ names, (members.mapM fun member => ask (·.spell member)) resolver = .ok names resolver ∧
      List.Forall₂ (fun member name => resolver.table.spell member = .ok name) members names := by
  induction members with
  | nil => exact ⟨[], rfl, .nil⟩
  | cons member members ih =>
      obtain ⟨first, others⟩ := List.forall_mem_cons.mp has
      obtain ⟨name, spelled⟩ := spell_answers intact.regular.toWellFormed intact.regular.paramsKnown first
      obtain ⟨names, run, told⟩ := ih others
      refine ⟨name :: names, ?_, .cons spelled told⟩
      rw [List.mapM_cons, bind_run_of_ok (ask_eq_ok.mpr ⟨spelled, rfl⟩), bind_run_of_ok run]
      rfl

/-- A cycle of a type that was not reported is reported. -/
theorem reportCycle_accounted {members : List TypeId} (accounted : resolver.Accounted)
    (has : resolver.table.Has id) (onCycle : (id, members) ∈ resolver.cycles) :
    ((reportCycle id members).finish resolver).Accounted := by
  obtain ⟨intact, reports, booked⟩ := accounted
  by_cases before : id ∈ resolver.reported
  · rw [finish_of_ok (reportCycle_run before)]
    exact ⟨intact, reports, booked⟩
  · let marked : Resolver := { resolver with reported := members ++ resolver.reported }
    have markedIntact : marked.Intact := ⟨intact.regular, intact.links, intact.cycles⟩
    obtain ⟨names, run, spelled⟩ := spells_run markedIntact (intact.cycles _ onCycle)
    obtain ⟨span, placed⟩ := declaredAt_answers intact.regular.toWellFormed has
    unfold reportCycle finish
    rw [get_bind_run, if_pos before, modify_bind_run, bind_run_of_ok run, bind_run_of_ok (ask_eq_ok.mpr ⟨placed, rfl⟩)]
    exact ⟨⟨intact.regular, intact.links, intact.cycles⟩, _, booked.report (.cycle id members) before onCycle (.cycle spelled placed)⟩

/-- Whether or not it is settled that a type has no finite structure, reports are accounted
for. -/
theorem isUnresolvable_accounted (fuel : Nat) (id : TypeId) :
    (isUnresolvable fuel id).Preserves (Lasts Accounted) := by
  refine preserves_iff.mpr fun resolver accounted => ?_
  have judges : (growsForever fuel id).Preserves (Lasts Accounted) := judges_accounted (growsForever_judges fuel id)
  unfold isUnresolvable
  refine finish_bind (fun _ middle run => judges.of_error run accounted) fun grows middle run => ?_
  have middleAccounted := judges.of_ok run accounted
  have has := (has_of_growsForever run).extends_ ((growsForever_judges fuel id).of_ok run).table
  cases grows with
  | true =>
      cases judged_of_run run with
      | @generic head type _ isHead isType _ known =>
          have asked : ask (·.head? id) middle = .ok (some head) middle := ask_eq_ok.mpr ⟨isHead, rfl⟩
          have hasHead : middle.table.Has head := has_of_get? (get_eq_ok.mp isType)
          have reported := reportGrowth_accounted middleAccounted hasHead known
          rw [if_pos rfl]
          unfold finish
          rw [bind_run_of_ok asked]
          refine finish_bind (fun _ last run => ?_) fun _ last run => ?_
          · exact finish_of_error run ▸ reported
          · exact finish_of_ok run ▸ reported
  | false =>
      have explores : (exploreOnce fuel id).Preserves (Lasts Accounted) :=
        preserves_iff.mpr fun resolver accounted =>
          accounted.silent ((exploreOnce_silent fuel id).finish resolver)
            ((exploreOnce_staysIntact fuel id).finish resolver)
      rw [if_neg (by simp)]
      refine finish_bind (fun _ last run => explores.of_error run middleAccounted) fun _ explored run => ?_
      have exploredAccounted := explores.of_ok run middleAccounted
      have exploredHas := has.extends_ ((exploreOnce_silent fuel id).of_ok run).table
      rw [finish_get_bind]
      cases onCycle : explored.cycles.lookup id with
      | none => exact exploredAccounted
      | some cycle =>
          have reported := reportCycle_accounted exploredAccounted exploredHas (mem_of_lookup onCycle)
          refine finish_bind (fun _ last run => ?_) fun _ last run => ?_
          · exact finish_of_error run ▸ reported
          · exact finish_of_ok run ▸ reported

/-- Whatever is asked next, reports are accounted for. -/
theorem accounted_leadsQueries (hooks : Registry) : LeadsQueries hooks (Lasts Accounted) (Lasts Accounted) := by
  apply leadsQueries_of_verdicts hooks
  · constructor
    case bodies => exact fun id => judges_accounted (body_judges id)
    case constituents => exact fun id => judges_accounted (constituents_judges id)
    case unresolvable => exact isUnresolvable_accounted
  · rintro operations resolver ⟨intact, reports, booked⟩
    exact ⟨⟨intact.regular, intact.links, intact.cycles⟩, reports,
      booked.silent { refl_of Silent resolver with }⟩

end ResolveM

namespace Resolver

variable {hooks : Registry} {resolver : Resolver}

/-- What a resolver in service has reported is accounted for. -/
theorem Serving.accounted (serving : Serving hooks resolver) : resolver.Accounted := by
  refine serving.keeps (fun table built => ?_) (accounted_leadsQueries hooks) fun resolver larger accounted extends_ intact => ?_
  · exact ⟨⟨built.regular, by simp, by simp⟩, [], ⟨.nil, by simp, by simp, .nil⟩⟩
  · obtain ⟨_, reports, booked⟩ := accounted
    exact ⟨intact, reports, booked.silent ⟨⟨extends_, fun _ _ known => known⟩, List.Subset.refl _, rfl, rfl⟩⟩

end Resolver
end LifecycleHooks

import LifecycleHooks.Proofs.Lifting.Search
import LifecycleHooks.Proofs.Types.Regular

/-!
# What resolution keeps

Whatever a resolver is asked, and whether or not it can answer, it forgets nothing:
the verdicts on generic objects, the types visited, the cycles found, the types
reported and the operations resolved stay as they are.  Judging touches only the
table and the verdicts; an exploration touches besides only what it visits.
-/

namespace LifecycleHooks
namespace Resolver

/-- A resolver with all types of another one and all its verdicts on generic objects. -/
structure Learns (resolver later : Resolver) : Prop where
  table : resolver.table.Extends later.table
  growth : ∀ head grows, resolver.growth.lookup head = some grows →
    later.growth.lookup head = some grows

instance : IsPreorder Resolver Learns where
  refl _ := ⟨.refl _, fun _ _ known => known⟩
  trans _ _ _ first second :=
    { table := first.table.trans second.table
      growth := fun head grows known => second.growth head grows (first.growth head grows known) }

/-- A resolver that differs from another one only by further types and further
verdicts on generic objects. -/
structure Judges (resolver later : Resolver) : Prop extends Learns resolver later where
  unrolls : TableM.Unrolls resolver.table later.table
  judging : later.judging = resolver.judging
  visited : later.visited = resolver.visited
  links : later.links = resolver.links
  trail : later.trail = resolver.trail
  cycles : later.cycles = resolver.cycles
  reported : later.reported = resolver.reported
  operations : later.operations = resolver.operations
  diagnostics : later.diagnostics = resolver.diagnostics

instance : IsPreorder Resolver Judges where
  refl resolver :=
    ⟨refl_of Learns resolver, refl_of TableM.Unrolls _, rfl, rfl, rfl, rfl, rfl, rfl, rfl, rfl⟩
  trans _ _ _ first second :=
    { trans_of Learns first.toLearns second.toLearns with
      unrolls := trans_of TableM.Unrolls first.unrolls second.unrolls
      judging := second.judging.trans first.judging
      visited := second.visited.trans first.visited
      links := second.links.trans first.links
      trail := second.trail.trans first.trail
      cycles := second.cycles.trans first.cycles
      reported := second.reported.trans first.reported
      operations := second.operations.trans first.operations
      diagnostics := second.diagnostics.trans first.diagnostics }

/-- Further types and bodies are learned by asking the table. -/
theorem judges_table {resolver : Resolver} {larger : TypeTable} (extends_ : resolver.table.Extends larger)
    (unrolls : TableM.Unrolls resolver.table larger) : resolver.Judges { resolver with table := larger } :=
  ⟨⟨extends_, fun _ _ known => known⟩, unrolls, rfl, rfl, rfl, rfl, rfl, rfl, rfl, rfl⟩

/-- A resolver that has explored further than another one: it has visited more
types, and linked only types that were not visited before. -/
structure Explores (resolver later : Resolver) : Prop extends Learns resolver later where
  judging : later.judging = resolver.judging
  visited : resolver.visited ⊆ later.visited
  links : ∃ more, later.links = resolver.links ++ more ∧
    ∀ link ∈ more, link.1 ∉ resolver.visited ∧ link.1 ∈ later.visited
  cycles : later.cycles = resolver.cycles
  reported : later.reported = resolver.reported
  operations : later.operations = resolver.operations
  diagnostics : later.diagnostics = resolver.diagnostics

instance : IsPreorder Resolver Explores where
  refl resolver :=
    ⟨refl_of Learns resolver, rfl, fun _ member => member, ⟨[], by simp, by simp⟩, rfl, rfl, rfl, rfl⟩
  trans _ _ _ first second := by
    obtain ⟨more, moreLinks, moreNew⟩ := first.links
    obtain ⟨others, otherLinks, othersNew⟩ := second.links
    exact
      { trans_of Learns first.toLearns second.toLearns with
        judging := second.judging.trans first.judging
        visited := fun _ member => second.visited (first.visited member)
        links := by
          refine ⟨more ++ others, by simp [otherLinks, moreLinks], fun link member => ?_⟩
          rcases List.mem_append.mp member with early | late
          · exact ⟨(moreNew link early).1, second.visited (moreNew link early).2⟩
          · exact ⟨fun before => (othersNew link late).1 (first.visited before),
              (othersNew link late).2⟩
        cycles := second.cycles.trans first.cycles
        reported := second.reported.trans first.reported
        operations := second.operations.trans first.operations
        diagnostics := second.diagnostics.trans first.diagnostics }

theorem Judges.explores {resolver later : Resolver} (judges : resolver.Judges later) :
    resolver.Explores later :=
  { judges with
    visited := judges.visited ▸ fun _ member => member
    links := ⟨[], by simp [judges.links], by simp⟩
    cycles := judges.cycles
    reported := judges.reported
    operations := judges.operations
    diagnostics := judges.diagnostics }

/-- A resolver that knows all that another one knows.  Between two questions no
exploration is going on, and a type visited before is on no cycle found later. -/
structure Extends (resolver later : Resolver) : Prop extends Learns resolver later where
  judging : later.judging = resolver.judging
  visited : resolver.visited ⊆ later.visited
  reported : resolver.reported ⊆ later.reported
  operations : ∀ key outcome, resolver.operations.lookup key = some outcome →
    later.operations.lookup key = some outcome
  rest : resolver.links = [] → later.links = []
  trail : resolver.trail = [] → later.trail = []
  cycles : ∃ more, later.cycles = resolver.cycles ++ more ∧ ∀ entry ∈ more,
    entry.1 ∈ entry.2 ∧ (resolver.links = [] → entry.1 ∉ resolver.visited)

instance : IsPreorder Resolver Extends where
  refl resolver :=
    ⟨refl_of Learns resolver, rfl, fun _ member => member, fun _ member => member,
      fun _ _ known => known, fun idle => idle, fun idle => idle, ⟨[], by simp, by simp⟩⟩
  trans _ _ _ first second :=
    { trans_of Learns first.toLearns second.toLearns with
      judging := second.judging.trans first.judging
      visited := fun _ member => second.visited (first.visited member)
      reported := fun _ member => second.reported (first.reported member)
      operations := fun key outcome known =>
        second.operations key outcome (first.operations key outcome known)
      rest := fun idle => second.rest (first.rest idle)
      trail := fun idle => second.trail (first.trail idle)
      cycles := by
        obtain ⟨more, moreCycles, moreNew⟩ := first.cycles
        obtain ⟨others, otherCycles, othersNew⟩ := second.cycles
        refine ⟨more ++ others, by simp [otherCycles, moreCycles], fun entry member => ?_⟩
        rcases List.mem_append.mp member with early | late
        · exact moreNew entry early
        · obtain ⟨inside, new⟩ := othersNew entry late
          exact ⟨inside, fun idle visited => new (first.rest idle) (first.visited visited)⟩ }

theorem Extends.refl (resolver : Resolver) : resolver.Extends resolver :=
  refl_of Extends resolver

theorem Extends.trans {first second third : Resolver} (earlier : first.Extends second)
    (later : second.Extends third) : first.Extends third :=
  trans_of Extends earlier later

/-- A resolver that knows all that another one knows, and of the same operations. -/
structure Consults (resolver later : Resolver) : Prop extends Extends resolver later where
  unresolved : later.operations = resolver.operations

instance : IsPreorder Resolver Consults where
  refl resolver := ⟨.refl resolver, rfl⟩
  trans _ _ _ first second :=
    ⟨first.toExtends.trans second.toExtends, second.unresolved.trans first.unresolved⟩

theorem Judges.consults {resolver later : Resolver} (judges : resolver.Judges later) :
    resolver.Consults later :=
  { unresolved := judges.operations
    table := judges.table
    growth := judges.growth
    judging := judges.judging
    visited := judges.visited ▸ fun _ member => member
    reported := judges.reported ▸ fun _ member => member
    operations := judges.operations ▸ fun _ _ known => known
    rest := fun idle => judges.links.trans idle
    trail := fun idle => judges.trail.trans idle
    cycles := ⟨[], by simp [judges.cycles], by simp⟩ }

/-- A type visited before is on no cycle found later. -/
theorem Extends.lookup_cycles {resolver later : Resolver} (extends_ : resolver.Extends later)
    (idle : resolver.links = []) {id : TypeId} (visited : id ∈ resolver.visited) :
    later.cycles.lookup id = resolver.cycles.lookup id := by
  obtain ⟨more, moreCycles, moreNew⟩ := extends_.cycles
  have notFound : more.lookup id = none := by
    rw [List.lookup_eq_none_iff]
    intro entry member
    exact bne_iff_ne.mpr fun same => (moreNew entry member).2 idle (same ▸ visited)
  rw [moreCycles, List.lookup_append, notFound, Option.or_none]

end Resolver

namespace ResolveM

open Attempt Resolver

@[simp]
theorem ask_eq_ok {Result : Type} {question : TypeTable → Except Fault Result}
    {resolver final : Resolver} {result : Result} :
    ask question resolver = .ok result final ↔
      question resolver.table = .ok result ∧ final = resolver := by
  simp [ask]

@[simp]
theorem fetch_eq_ok {resolver final : Resolver} {id : TypeId} {type : TypeDef} :
    fetch id resolver = .ok type final ↔ resolver.table.get id = .ok type ∧ final = resolver :=
  ask_eq_ok

theorem onTable_eq_ok {Result : Type} {action : TableM Result} {resolver final : Resolver}
    {result : Result} :
    onTable action resolver = .ok result final ↔
      ∃ table, action resolver.table = .ok result table ∧ final = { resolver with table := table } :=
  onPart_eq_ok

section Judging

theorem ask_leads {Result : Type} {done failed : Resolver → Resolver → Prop}
    [IsLead done failed] (question : TypeTable → Except Fault Result) :
    (ask question).Leads done failed :=
  leads_get.bind fun _ => leads_ofExcept _

/-- Working on the table leads along a relation as soon as larger tables without types of new shapes
do. -/
theorem onTable_preserves {Result : Type} {action : TableM Result} {relation : Resolver → Resolver → Prop}
    (extends_ : action.Preserves TypeTable.Extends) (unrolls : action.Preserves TableM.Unrolls)
    (judges : ∀ (resolver : Resolver) (larger : TypeTable), resolver.Judges { resolver with table := larger } →
      relation resolver { resolver with table := larger }) : (onTable action).Preserves relation := by
  have both : action.Preserves fun table larger =>
      table.Extends larger ∧ TableM.Unrolls table larger :=
    preserves_iff.mpr fun table => ⟨extends_.finish table, unrolls.finish table⟩
  exact preserves_onPart both fun _ _ grows => judges _ _ (judges_table grows.1 grows.2)

theorem onTable_judges {Result : Type} {action : TableM Result}
    (extends_ : action.Preserves TypeTable.Extends) (unrolls : action.Preserves TableM.Unrolls) :
    (onTable action).Preserves Judges :=
  onTable_preserves extends_ unrolls fun _ _ judges => judges

theorem body_judges (id : TypeId) : (onTable (TableM.body id)).Preserves Judges :=
  onTable_judges (TableM.body_extends id) (TableM.body_unrolls id)

theorem constituents_judges (id : TypeId) : (onTable (TableM.constituents id)).Preserves Judges :=
  onTable_judges (TableM.constituents_extends id) (TableM.constituents_unrolls id)

theorem nesting_judges (id : TypeId) : (onTable (TableM.nesting id)).Preserves Judges :=
  onTable_judges (TableM.nesting_extends id) (TableM.nesting_unrolls id)

theorem isTooDeep_leads {done failed : Resolver → Resolver → Prop} [IsLead done failed]
    (nests : ∀ id, (onTable (TableM.nesting id)).Leads done failed) (id : TypeId) :
    (isTooDeep id).Leads done failed := by
  refine (ask_leads _).bind fun type => ?_
  cases type with
  | applied head args => exact (nests id).bind fun _ => leads_pure _
  | _ => exact leads_pure _

theorem isTooDeep_judges (id : TypeId) : (isTooDeep id).Preserves Judges :=
  isTooDeep_leads nesting_judges id

theorem lookup_cons_of_ne {Key Value : Type} [BEq Key] [LawfulBEq Key] {key other : Key}
    {value : Value} {entries : List (Key × Value)} (differ : key ≠ other) :
    ((other, value) :: entries).lookup key = entries.lookup key := by
  rw [List.lookup_cons, beq_false_of_ne differ]

theorem isFollowed_leads {done failed : Resolver → Resolver → Prop} [IsLead done failed] {fuel : Nat}
    (judges : ∀ id, (growsForever fuel id).Leads done failed) (head id : TypeId) :
    (isFollowed head fuel id).Leads done failed := by
  refine (ask_leads _).bind fun type => ?_
  cases type with
  | applied other args =>
      change (if other = head then _ else _ : ResolveM Bool).Leads done failed
      split
      · exact leads_pure _
      · refine leads_get.bind fun resolver => ?_
        split
        · exact leads_pure _
        · exact (judges id).bind fun _ => leads_pure _
  | _ => exact leads_pure _

theorem openType_leads {done failed : Resolver → Resolver → Prop} [IsLead done failed]
    (nests : ∀ id, (onTable (TableM.nesting id)).Leads done failed)
    (parts : ∀ id, (onTable (TableM.constituents id)).Leads done failed) (id : TypeId) :
    (openType id).Leads done failed := by
  refine (isTooDeep_leads nests id).bind fun tooDeep => ?_
  split
  · exact leads_pure _
  · exact (parts id).bind fun _ => leads_pure _

theorem openType_judges (id : TypeId) : (openType id).Preserves Judges :=
  openType_leads nesting_judges constituents_judges id

/-- A visit of the search for growth judges another object or asks the table. -/
theorem visitForGrowth_leads {done failed : Resolver → Resolver → Prop} [IsLead done failed] {fuel : Nat}
    (nests : ∀ id, (onTable (TableM.nesting id)).Leads done failed)
    (parts : ∀ id, (onTable (TableM.constituents id)).Leads done failed)
    (judges : ∀ id, (growsForever fuel id).Leads done failed) (head id : TypeId) :
    (visitForGrowth head fuel id).Leads done failed := by
  refine (isFollowed_leads judges head id).bind fun followed => ?_
  split
  · exact openType_leads nests parts id
  · exact leads_pure _

theorem isFollowed_judges {fuel : Nat} (judges : ∀ id, (growsForever fuel id).Preserves Judges)
    (head id : TypeId) : (isFollowed head fuel id).Preserves Judges :=
  isFollowed_leads judges head id

theorem visitForGrowth_judges {fuel : Nat} (judges : ∀ id, (growsForever fuel id).Preserves Judges)
    (head id : TypeId) : (visitForGrowth head fuel id).Preserves Judges :=
  visitForGrowth_leads nesting_judges constituents_judges judges head id

/-- Judging a generic object touches only the table and the verdicts. -/
theorem growsForever_judges (fuel : Nat) (id : TypeId) :
    (growsForever fuel id).Preserves Judges := by
  induction fuel using Nat.strongRecOn generalizing id with
  | ind fuel ih =>
  cases fuel with
  | zero => exact leads_throw _
  | succ fuel =>
      unfold growsForever
      refine (ask_leads _).bind fun head => ?_
      cases head with
      | none => exact leads_pure _
      | some head =>
          refine (ask_leads _).bind fun type => ?_
          split
          · exact leads_pure _
          · refine preserves_iff.mpr fun resolver => ?_
            rw [finish_get_bind]
            split
            · exact refl_of Judges resolver
            · rename_i unknown
              have searched : (andFinally (searchGrowth fuel head [] [head]) fun resolver =>
                  { resolver with judging := resolver.judging.erase head }).Preserves
                    fun before after => before.judging = head :: resolver.judging →
                      Judges { before with judging := resolver.judging } after := by
                have searches : (search (visitForGrowth head) fuel [] [head]).Preserves Judges :=
                  search_leads
                    (fun less bound other => visitForGrowth_judges (ih less (by omega)) head other) _ _
                rw [searchGrowth_eq_search]
                refine preserves_andFinally searches fun before middle judges started => ?_
                exact { judges with judging := by simp [judges.judging, started] }
              refine finish_bind (fun _ _ run => by cases run) fun _ begun run => ?_
              obtain rfl : begun = { resolver with judging := head :: resolver.judging } := by
                simpa [beginJudging, eq_comm] using run
              refine finish_bind (fun _ middle run => ?_) fun grows middle run => ?_
              · have judges := searched.of_error run
                exact judges rfl
              · have judges := searched.of_ok run
                replace judges := judges rfl
                -- The new verdict hides none that was known before.
                refine { judges with growth := fun other known found => ?_ }
                have differ : other ≠ head := by
                  rintro rfl
                  cases unknown.symm.trans found
                simpa [finish, lookup_cons_of_ne differ] using judges.growth other known found

end Judging

section Exploring

theorem byValueParts_judges (fuel : Nat) (id : TypeId) : (byValueParts fuel id).Preserves Judges := by
  refine (growsForever_judges fuel id).bind fun grows => ?_
  split
  · exact leads_pure _
  · refine (ask_leads _).bind fun type => ?_
    split
    · exact (constituents_judges id).bind fun _ => leads_pure _
    · exact leads_pure _

/-- A resolver that has explored further than another one, with a type among those
that it visited. -/
structure Visits (id : TypeId) (resolver later : Resolver) : Prop extends
    Explores resolver later where
  visits : id ∈ later.visited

theorem explore_succ_visits {fuel : Nat}
    (explores : ∀ part (before : Resolver), part ∉ before.visited →
      before.Explores ((explore fuel part).finish before))
    {id : TypeId} {resolver : Resolver} (new : id ∉ resolver.visited) :
    Visits id resolver ((explore (fuel + 1) id).finish resolver) := by
  have started : resolver.Explores
      { resolver with visited := id :: resolver.visited, trail := id :: resolver.trail } :=
    { refl_of Explores resolver with
      visited := fun _ member => List.mem_cons_of_mem _ member
      links := ⟨[], by simp, by simp⟩ }
  unfold explore
  refine finish_bind (fun _ _ run => by cases run) fun _ middle run => ?_
  obtain rfl : middle = _ := by simpa [eq_comm] using run
  refine finish_bind (fun _ middle run => ?_) fun parts middle run => ?_
  · have judged := (byValueParts_judges fuel id).of_error run
    exact ⟨trans_of Explores started judged.explores, by simp [judged.visited]⟩
  · have judged := (byValueParts_judges fuel id).of_ok run
    have linked : resolver.Explores { middle with links := middle.links ++ [(id, parts)] } :=
      { trans_of Explores started judged.explores with
        links := by
          refine ⟨[(id, parts)], by simp [judged.links], ?_⟩
          simp [new, judged.visited] }
    have visited : id ∈ middle.visited := by simp [judged.visited]
    refine finish_bind (fun _ _ run => by cases run) fun _ middle run => ?_
    obtain rfl : middle = _ := by simpa [eq_comm] using run
    have all : (parts.forM fun part => do
        let before : Resolver ← get
        if part ∉ before.visited then
          explore fuel part).Preserves Explores := by
      refine leads_forM fun part _ => preserves_iff.mpr fun before => ?_
      change before.Explores (finish (if part ∉ before.visited then _ else _) before)
      split
      · rename_i unvisited
        exact explores part before unvisited
      · exact refl_of Explores before
    refine finish_bind (fun _ middle run => ?_) fun _ middle run => ?_
    · have explored := all.of_error run
      exact ⟨trans_of Explores linked explored, explored.visited visited⟩
    · have explored := all.of_ok run
      exact ⟨{ trans_of Explores linked explored with }, explored.visited visited⟩

/-- An exploration that starts at a type not visited before only explores. -/
theorem explore_explores (fuel : Nat) (id : TypeId) (resolver : Resolver)
    (new : id ∉ resolver.visited) : resolver.Explores ((explore fuel id).finish resolver) := by
  induction fuel generalizing id resolver with
  | zero => exact refl_of Explores resolver
  | succ fuel ih => exact (explore_succ_visits ih new).toExplores

theorem visited_of_explore {fuel : Nat} {id : TypeId} {resolver final : Resolver}
    (new : id ∉ resolver.visited) (run : explore fuel id resolver = .ok () final) :
    id ∈ final.visited := by
  cases fuel with
  | zero => cases run
  | succ fuel =>
      rw [← finish_of_ok run]
      exact (explore_succ_visits (explore_explores fuel) new).visits

/-- A cycle that was found belongs to a type of the exploration and holds it. -/
theorem mem_foundCycles {resolver : Resolver} {entry : TypeId × List TypeId}
    (found : entry ∈ resolver.foundCycles) :
    entry.1 ∈ entry.2 ∧ ∃ link ∈ resolver.links, link.1 = entry.1 := by
  obtain ⟨⟨id, reached⟩, member, settled⟩ := List.mem_filterMap.mp found
  obtain ⟨link, isLink, equal⟩ := List.mem_map.mp member
  dsimp only at settled
  split at settled
  · rename_i cyclic
    obtain rfl := Option.some.inj settled
    refine ⟨?_, link, isLink, (Prod.mk.inj equal).1⟩
    exact List.mem_map.mpr ⟨_, List.mem_filter.mpr ⟨member, by simp [cyclic.1]⟩, rfl⟩
  · cases settled

theorem exploreOnce_consults (fuel : Nat) (id : TypeId) : (exploreOnce fuel id).Preserves Consults := by
  refine preserves_iff.mpr fun resolver => ?_
  change resolver.Consults (finish (if id ∉ resolver.visited then _ else _) resolver)
  split
  · rename_i new
    have explored := explore_explores fuel id resolver new
    change resolver.Consults (finish (andFinally (explore fuel id) Resolver.settle) resolver)
    rw [finish_andFinally]
    exact
      { unresolved := explored.operations
        table := explored.table
        growth := explored.growth
        judging := explored.judging
        visited := explored.visited
        reported := explored.reported ▸ fun _ member => member
        operations := explored.operations ▸ fun _ _ known => known
        rest := fun _ => rfl
        trail := fun _ => rfl
        cycles := by
          refine ⟨((explore fuel id).finish resolver).foundCycles,
            by rw [settle, explored.cycles], fun entry found => ?_⟩
          obtain ⟨inside, link, isLink, same⟩ := mem_foundCycles found
          refine ⟨inside, fun idle visited => ?_⟩
          obtain ⟨more, linked, new⟩ := explored.links
          rw [linked, idle, List.nil_append] at isLink
          exact (new link isLink).1 (same ▸ visited) }
  · exact refl_of Consults resolver

theorem visited_of_exploreOnce {fuel : Nat} {id : TypeId} {resolver final : Resolver}
    (run : exploreOnce fuel id resolver = .ok () final) : id ∈ final.visited := by
  unfold exploreOnce at run
  rw [get_bind_run] at run
  split at run
  · rename_i new
    obtain ⟨explored, explores, rfl⟩ := andFinally_eq_ok.mp run
    have visited : id ∈ explored.visited := visited_of_explore new explores
    exact visited
  · rename_i visited
    obtain ⟨_, rfl⟩ := EStateM.Result.ok.inj run
    exact not_not.mp visited

end Exploring

section Asking

/-- Relations along which everything leads that the resolution of operations is made from:
asking the table and settling verdicts on types. -/
structure LeadsVerdicts (done failed : Resolver → Resolver → Prop) : Prop where
  bodies : ∀ id, (onTable (TableM.body id)).Leads done failed
  constituents : ∀ id, (onTable (TableM.constituents id)).Leads done failed
  unresolvable : ∀ fuel id, (isUnresolvable fuel id).Leads done failed

theorem known?_run (resolver : Resolver) (id : TypeId) (kind : OpKind) :
    known? id kind resolver = .ok (resolver.operations.lookup (id, kind)) resolver :=
  rfl

section Verdicts

variable {done failed : Resolver → Resolver → Prop}

variable [IsLead done failed]

theorem known?_leads (id : TypeId) (kind : OpKind) : (known? id kind).Leads done failed :=
  leads_get.bind fun _ => leads_pure _

section Reporting

variable (marks : ∀ (ids : List TypeId) (resolver : Resolver),
    done resolver { resolver with reported := ids ++ resolver.reported })
  (reports : ∀ (diagnostics : List Diagnostic) (resolver : Resolver),
    done resolver { resolver with diagnostics := diagnostics })

include marks reports

theorem reportGrowth_leads (head : TypeId) : (reportGrowth head).Leads done failed := by
  refine leads_get.bind fun resolver => ?_
  split
  · exact (leads_modify (marks [head])).bind fun _ => (ask_leads _).bind fun _ =>
      (ask_leads _).bind fun _ => leads_modify fun resolver => reports _ resolver
  · exact leads_pure _

theorem reportCycle_leads (id : TypeId) (cycle : List TypeId) :
    (reportCycle id cycle).Leads done failed := by
  refine leads_get.bind fun resolver => ?_
  split
  · exact (leads_modify (marks cycle)).bind fun _ =>
      (leads_mapM fun _ _ => ask_leads _).bind fun _ =>
        (ask_leads _).bind fun _ => leads_modify fun resolver => reports _ resolver
  · exact leads_pure _

/-- What leads along judging, exploring and reporting settles verdicts on types. -/
theorem isUnresolvable_leads (grows : ∀ fuel id, (growsForever fuel id).Leads done failed)
    (explores : ∀ fuel id, (exploreOnce fuel id).Leads done failed) (fuel : Nat) (id : TypeId) :
    (isUnresolvable fuel id).Leads done failed := by
  refine (grows fuel id).bind fun grows => ?_
  split
  · exact (ask_leads _).bind fun _ => (reportGrowth_leads marks reports _).bind fun _ => leads_pure _
  · refine (explores fuel id).bind fun _ => leads_get.bind fun resolver => ?_
    split
    · exact (reportCycle_leads marks reports id _).bind fun _ => leads_pure _
    · exact leads_pure _

end Reporting

/-- What leads along everything that judging touches. -/
theorem leadsVerdicts_of_judges (judges : ∀ resolver later, Judges resolver later → done resolver later)
    (judgesFailing : ∀ resolver later, Judges resolver later → failed resolver later)
    (explores : ∀ fuel id, (exploreOnce fuel id).Leads done failed)
    (marks : ∀ (ids : List TypeId) (resolver : Resolver),
      done resolver { resolver with reported := ids ++ resolver.reported })
    (reports : ∀ (diagnostics : List Diagnostic) (resolver : Resolver),
      done resolver { resolver with diagnostics := diagnostics }) : LeadsVerdicts done failed where
  bodies id := (body_judges id).mono judges judgesFailing
  constituents id := (constituents_judges id).mono judges judgesFailing
  unresolvable fuel id :=
    isUnresolvable_leads marks reports (fun fuel id => (growsForever_judges fuel id).mono judges judgesFailing)
      explores fuel id

variable (leads : LeadsVerdicts done failed)

include leads

theorem relevantSlots_leads (id : TypeId) (kind : OpKind) :
    (relevantSlots id kind).Leads done failed := by
  refine (ask_leads _).bind fun type => ?_
  split
  · exact leads.constituents id
  · exact leads_pure _

theorem visitForHook_leads (hooks : Registry) (kind : OpKind) (fuel : Nat) (id : TypeId) :
    (visitForHook hooks kind fuel id).Leads done failed := by
  refine (leads.unresolvable fuel id).bind fun unresolvable => ?_
  split
  · exact leads_pure _
  · refine (known?_leads id kind).bind fun known => ?_
    cases known with
    | some outcome => exact leads_pure _
    | none =>
        refine (ask_leads _).bind fun entry => ?_
        split
        · exact leads_pure _
        · exact (relevantSlots_leads leads id kind).bind fun _ => leads_pure _

theorem visitForStorage_leads (fuel : Nat) (id : TypeId) :
    (visitForStorage fuel id).Leads done failed := by
  refine (leads.unresolvable fuel id).bind fun unresolvable => ?_
  split
  · exact leads_pure _
  · refine (ask_leads _).bind fun type => ?_
    split
    · exact leads_pure _
    · exact (leads.constituents id).bind fun _ => leads_pure _

theorem reachesHook_leads (hooks : Registry) (fuel : Nat) (id : TypeId) (kind : OpKind) :
    (reachesHook hooks fuel id kind).Leads done failed := by
  refine (known?_leads id kind).bind fun known => ?_
  cases known with
  | some outcome => exact leads_pure _
  | none =>
      dsimp only
      rw [searchHook_eq_search]
      exact search_leads (fun less _ id => visitForHook_leads leads hooks kind less id) _ _

theorem determine_leads (hooks : Registry) (fuel : Nat) (id : TypeId) (kind : OpKind) :
    (determine hooks fuel id kind).Leads done failed := by
  refine (leads.unresolvable fuel id).bind fun unresolvable => ?_
  split
  · exact leads_pure _
  · refine (ask_leads _).bind fun entry => ?_
    cases entry with
    | some entry => exact leads_pure _
    | none =>
        refine (relevantSlots_leads leads id kind).bind fun slots => ?_
        split
        · exact leads_pure _
        · refine (reachesHook_leads leads hooks fuel id kind).bind fun reaches => ?_
          split
          · exact (leads_filterM fun _ _ => reachesHook_leads leads hooks fuel _ kind).bind
              fun _ => leads_pure _
          · exact leads_pure _

end Verdicts

theorem consults_marks (ids : List TypeId) (resolver : Resolver) :
    resolver.Consults { resolver with reported := ids ++ resolver.reported } :=
  { refl_of Consults resolver with reported := fun _ member => List.mem_append_right ids member }

theorem consults_reports (diagnostics : List Diagnostic) (resolver : Resolver) :
    resolver.Consults { resolver with diagnostics := diagnostics } :=
  { refl_of Consults resolver with }

theorem consults_leadsVerdicts : LeadsVerdicts Consults Consults :=
  leadsVerdicts_of_judges (fun _ _ judges => judges.consults) (fun _ _ judges => judges.consults)
    exploreOnce_consults consults_marks consults_reports

theorem growsForever_consults (fuel : Nat) (id : TypeId) :
    (growsForever fuel id).Preserves Consults :=
  (growsForever_judges fuel id).mono (fun _ _ judges => judges.consults) fun _ _ judges => judges.consults

theorem report_consults (diagnostic : Diagnostic) : (report diagnostic).Preserves Consults :=
  leads_modify fun resolver => consults_reports _ resolver

theorem reportGrowth_consults (head : TypeId) : (reportGrowth head).Preserves Consults :=
  reportGrowth_leads consults_marks consults_reports head

theorem reportCycle_consults (id : TypeId) (cycle : List TypeId) :
    (reportCycle id cycle).Preserves Consults :=
  reportCycle_leads consults_marks consults_reports id cycle

theorem isUnresolvable_consults (fuel : Nat) (id : TypeId) :
    (isUnresolvable fuel id).Preserves Consults :=
  consults_leadsVerdicts.unresolvable fuel id

theorem relevantSlots_consults (id : TypeId) (kind : OpKind) :
    (relevantSlots id kind).Preserves Consults :=
  relevantSlots_leads consults_leadsVerdicts id kind

theorem visitForHook_consults (hooks : Registry) (kind : OpKind) (fuel : Nat) (id : TypeId) :
    (visitForHook hooks kind fuel id).Preserves Consults :=
  visitForHook_leads consults_leadsVerdicts hooks kind fuel id

theorem reachesHook_consults (hooks : Registry) (fuel : Nat) (id : TypeId) (kind : OpKind) :
    (reachesHook hooks fuel id kind).Preserves Consults :=
  reachesHook_leads consults_leadsVerdicts hooks fuel id kind

theorem determine_consults (hooks : Registry) (fuel : Nat) (id : TypeId) (kind : OpKind) :
    (determine hooks fuel id kind).Preserves Consults :=
  determine_leads consults_leadsVerdicts hooks fuel id kind

theorem reported_of_reportGrowth {head : TypeId} {resolver final : Resolver}
    (run : reportGrowth head resolver = .ok () final) : head ∈ final.reported := by
  unfold reportGrowth at run
  rw [get_bind_run] at run
  split at run
  · rw [modify_bind_run] at run
    obtain ⟨name, spelled, spelling, run⟩ := bind_eq_ok.mp run
    obtain ⟨_, rfl⟩ := ask_eq_ok.mp spelling
    obtain ⟨span, placed, placing, reporting⟩ := bind_eq_ok.mp run
    obtain ⟨_, rfl⟩ := ask_eq_ok.mp placing
    exact ((report_consults _).of_ok reporting).reported (by simp)
  · rename_i reported
    obtain ⟨_, rfl⟩ := EStateM.Result.ok.inj run
    exact not_not.mp reported

theorem reported_of_reportCycle {id : TypeId} {cycle : List TypeId} {resolver final : Resolver}
    (inside : id ∈ cycle) (run : reportCycle id cycle resolver = .ok () final) :
    id ∈ final.reported := by
  unfold reportCycle at run
  rw [get_bind_run] at run
  split at run
  · rw [modify_bind_run] at run
    obtain ⟨names, spelled, spelling, run⟩ := bind_eq_ok.mp run
    obtain ⟨span, placed, placing, reporting⟩ := bind_eq_ok.mp run
    obtain ⟨_, rfl⟩ := ask_eq_ok.mp placing
    have spells : (cycle.mapM fun member => ask (·.spell member)).Preserves Consults :=
      leads_mapM fun _ _ => ask_leads _
    have reported := (spells.of_ok spelling).reported (List.mem_append_left _ inside)
    exact ((report_consults _).of_ok reporting).reported reported
  · rename_i reported
    obtain ⟨_, rfl⟩ := EStateM.Result.ok.inj run
    exact not_not.mp reported

end Asking
end ResolveM
end LifecycleHooks

import LifecycleHooks.Proofs.Lifting.Queries
import LifecycleHooks.Proofs.Scope.Completeness

/-!
# Scheduled destructions

What a schedule destroys at the anchor of an edge is read off the graph and the resolver
that is left: scope by scope from the innermost, the live locals that are not handed over
and whose destruction runs a hook, the latest first.
-/

namespace LifecycleHooks

open Attempt Resolver

namespace Resolver

/-- It is known whether destroying values of a type runs a hook. -/
def KnowsDestruction (hooks : Registry) (resolver : Resolver) (type : TypeId) : Prop :=
  hooks.frozen = true ∧ (resolver.operations.lookup (type, .destroy)).isSome = true

/-- Whether destroying values of a type is known to run a hook. -/
def runsHook (resolver : Resolver) (type : TypeId) : Bool :=
  (resolver.operations.lookup (type, .destroy)).any fun outcome => !outcome.isBuiltIn

theorem KnowsDestruction.extends_ {hooks : Registry} {resolver later : Resolver} {type : TypeId}
    (knows : resolver.KnowsDestruction hooks type) (extends_ : resolver.Extends later) :
    later.KnowsDestruction hooks type ∧ later.runsHook type = resolver.runsHook type := by
  obtain ⟨frozen, known⟩ := knows
  obtain ⟨outcome, found⟩ := Option.isSome_iff_exists.mp known
  have still := extends_.operations _ _ found
  exact ⟨⟨frozen, by rw [still]; rfl⟩, by rw [runsHook, runsHook, still, found]⟩

end Resolver

namespace ResolveM

variable {hooks : Registry} {fuel : Nat} {graph : ScopeGraph}

/-- What is known about the destruction of a type is what the resolver answers. -/
theorem isDestructible_known {resolver : Resolver} {type : TypeId}
    (knows : resolver.KnowsDestruction hooks type) :
    isDestructible hooks fuel type resolver = .ok (resolver.runsHook type) resolver := by
  obtain ⟨frozen, known⟩ := knows
  obtain ⟨outcome, found⟩ := Option.isSome_iff_exists.mp known
  have resolved : resolve hooks fuel type .destroy resolver =
      .ok ⟨type, .destroy, outcome⟩ resolver := by
    unfold resolve
    rw [frozen, if_neg (by simp), known?_bind_run, found]
    rfl
  unfold isDestructible
  rw [bind_run_of_ok resolved, runsHook, found]
  rfl

theorem resolve_knows {id : TypeId} {resolver later : Resolver} {operation : Operation}
    (run : resolve hooks fuel id .destroy resolver = .ok operation later) :
    later.KnowsDestruction hooks id ∧ later.runsHook id = !operation.isBuiltIn := by
  obtain ⟨kept, -⟩ := resolve_kept run
  have frozen : hooks.frozen = true := by
    unfold resolve at run
    cases closed : hooks.frozen with
    | true => rfl
    | false =>
        rw [closed] at run
        cases run
  refine ⟨⟨frozen, by rw [kept]; rfl⟩, ?_⟩
  rw [runsHook, kept]
  rfl

theorem expand_extends (id : TypeId) (kind : OpKind) (place : String) :
    (expand hooks fuel id kind place).Preserves Extends :=
  expandWithin_leads (extends_leadsQueries hooks) kind fuel [] id place

section Leading

variable {done failed : Resolver → Resolver → Prop} [IsLead done failed] (leads : LeadsQueries hooks done failed)

include leads

theorem scheduleLocal_leads (declared : Local) : (scheduleLocal hooks fuel declared).Leads done failed := by
  refine (leads.resolves fuel declared.type .destroy).bind fun operation => ?_
  split
  · exact leads_pure _
  · exact (expandWithin_leads leads .destroy fuel [] declared.type declared.name).bind fun _ => leads_pure _

theorem scheduleLocals_leads (locals : List Local) :
    (locals.filterMapM (scheduleLocal hooks fuel)).Leads done failed := by
  rw [filterMapM_eq]
  exact (leads_mapM fun declared _ => scheduleLocal_leads leads declared).bind fun _ => leads_pure _

theorem scheduleEdge_leads (graph : ScopeGraph) (edge : ExitEdge) :
    (scheduleEdge hooks fuel graph edge).Leads done failed :=
  (leads_mapM fun _ _ => (leads_ofExcept _).bind fun _ => scheduleLocals_leads leads _).bind fun _ =>
    leads_pure _

theorem schedule_leads (graph : ScopeGraph) : (schedule hooks fuel graph).Leads done failed :=
  (leads_ofExcept _).bind fun _ =>
    (leads_mapM fun edge _ => (scheduleEdge_leads leads graph edge).bind fun _ => leads_pure _).bind fun _ => leads_pure _

end Leading

/-- What is scheduled for a local tells whether its destruction runs a hook. -/
def SchedulesLocal (hooks : Registry) (resolver : Resolver) (declared : Local)
    (scheduled : Option ScheduledDestroy) : Prop :=
  resolver.KnowsDestruction hooks declared.type ∧
    scheduled.map ScheduledDestroy.declared =
      if resolver.runsHook declared.type then some declared else none

theorem SchedulesLocal.extends_ {declared : Local} {scheduled : Option ScheduledDestroy}
    {resolver later : Resolver} (schedules : SchedulesLocal hooks resolver declared scheduled)
    (extends_ : resolver.Extends later) : SchedulesLocal hooks later declared scheduled := by
  obtain ⟨knows, same⟩ := schedules
  obtain ⟨still, keeps⟩ := knows.extends_ extends_
  exact ⟨still, by rw [keeps, same]⟩

theorem scheduleLocal_schedules {declared : Local} {resolver later : Resolver}
    {scheduled : Option ScheduledDestroy}
    (run : scheduleLocal hooks fuel declared resolver = .ok scheduled later) :
    SchedulesLocal hooks later declared scheduled := by
  obtain ⟨operation, middle, resolving, run⟩ := bind_eq_ok.mp run
  obtain ⟨knows, runs⟩ := resolve_knows resolving
  split at run
  · rename_i isBuiltIn
    obtain ⟨rfl, rfl⟩ := EStateM.Result.ok.inj run
    exact ⟨knows, by simp [runs, isBuiltIn]⟩
  · rename_i isNotBuiltIn
    obtain ⟨plan, last, expanding, run⟩ := bind_eq_ok.mp run
    obtain ⟨rfl, rfl⟩ := EStateM.Result.ok.inj run
    have here : SchedulesLocal hooks middle declared (some ⟨declared, operation, plan⟩) :=
      ⟨knows, by simp [runs, isNotBuiltIn]⟩
    exact here.extends_ ((expand_extends _ _ _).of_ok expanding)

/-- What is scheduled for locals is those whose destruction runs a hook. -/
def SchedulesAll (hooks : Registry) (resolver : Resolver) (locals : List Local)
    (scheduled : List ScheduledDestroy) : Prop :=
  (∀ declared ∈ locals, resolver.KnowsDestruction hooks declared.type) ∧
    scheduled.map ScheduledDestroy.declared =
      locals.filter fun declared => resolver.runsHook declared.type

theorem SchedulesAll.extends_ {locals : List Local} {scheduled : List ScheduledDestroy}
    {resolver later : Resolver} (schedules : SchedulesAll hooks resolver locals scheduled)
    (extends_ : resolver.Extends later) : SchedulesAll hooks later locals scheduled := by
  obtain ⟨knows, same⟩ := schedules
  refine ⟨fun declared member => ((knows declared member).extends_ extends_).1, ?_⟩
  rw [same]
  exact List.filter_congr fun declared member => ((knows declared member).extends_ extends_).2.symm

theorem SchedulesAll.append {first second : List Local} {scheduled others : List ScheduledDestroy}
    {resolver : Resolver} (before : SchedulesAll hooks resolver first scheduled)
    (behind : SchedulesAll hooks resolver second others) :
    SchedulesAll hooks resolver (first ++ second) (scheduled ++ others) := by
  refine ⟨fun declared member => ?_, ?_⟩
  · rcases List.mem_append.mp member with early | late
    · exact before.1 declared early
    · exact behind.1 declared late
  · rw [List.map_append, List.filter_append, before.2, behind.2]

theorem schedulesAll_of_each {locals : List Local} {found : List (Option ScheduledDestroy)}
    {resolver : Resolver} (each : List.Forall₂ (SchedulesLocal hooks resolver) locals found) :
    SchedulesAll hooks resolver locals (found.filterMap id) := by
  induction each with
  | nil => exact ⟨by simp, rfl⟩
  | @cons declared scheduled locals found first rest ih =>
      have here : SchedulesAll hooks resolver [declared] scheduled.toList := by
        obtain ⟨knows, same⟩ := first
        refine ⟨by simpa using knows, ?_⟩
        by_cases hooked : resolver.runsHook declared.type = true
        · rw [if_pos hooked] at same
          obtain ⟨destruction, rfl, rfl⟩ := Option.map_eq_some_iff.mp same
          simp [hooked]
        · rw [if_neg hooked] at same
          obtain rfl := Option.map_eq_none_iff.mp same
          simp [hooked]
      cases scheduled with
      | none => exact here.append ih
      | some destruction => exact here.append ih

theorem scheduleLocals_schedules {locals : List Local} {resolver later : Resolver}
    {scheduled : List ScheduledDestroy}
    (run : locals.filterMapM (scheduleLocal hooks fuel) resolver = .ok scheduled later) :
    SchedulesAll hooks later locals scheduled := by
  rw [filterMapM_eq] at run
  obtain ⟨found, last, mapped, run⟩ := bind_eq_ok.mp run
  obtain ⟨rfl, rfl⟩ := EStateM.Result.ok.inj run
  exact schedulesAll_of_each <| mapM_tells (SchedulesLocal hooks) (scheduleLocal_leads (extends_leadsQueries hooks))
    (fun _ _ _ _ run => scheduleLocal_schedules run)
    (fun _ _ _ _ schedules extends_ => schedules.extends_ extends_) mapped

/-- What is scheduled on an edge in a scope that it unwinds: the live locals that are not
handed over, the latest first, as far as their destruction runs a hook. -/
def SchedulesScope (hooks : Registry) (graph : ScopeGraph) (edge : ExitEdge)
    (resolver : Resolver) (id : ScopeId) (scheduled : List ScheduledDestroy) : Prop :=
  ∃ live, graph.liveLocals edge id = .ok live ∧
    SchedulesAll hooks resolver (live.filter fun declared => declared.binding ∉ edge.consumed)
      scheduled

/-- What is scheduled on an edge: what is scheduled in the scopes that it unwinds, one after
the other. -/
def SchedulesEdge (hooks : Registry) (graph : ScopeGraph) (resolver : Resolver)
    (edge : ExitEdge) (scheduled : List ScheduledDestroy) : Prop :=
  ∃ parts, scheduled = parts.flatten ∧
    List.Forall₂ (SchedulesScope hooks graph edge resolver) edge.unwound parts

theorem SchedulesScope.extends_ {edge : ExitEdge} {id : ScopeId}
    {scheduled : List ScheduledDestroy} {resolver later : Resolver}
    (schedules : SchedulesScope hooks graph edge resolver id scheduled)
    (extends_ : resolver.Extends later) : SchedulesScope hooks graph edge later id scheduled := by
  obtain ⟨live, isLive, all⟩ := schedules
  exact ⟨live, isLive, all.extends_ extends_⟩

theorem SchedulesEdge.extends_ {edge : ExitEdge} {scheduled : List ScheduledDestroy}
    {resolver later : Resolver} (schedules : SchedulesEdge hooks graph resolver edge scheduled)
    (extends_ : resolver.Extends later) : SchedulesEdge hooks graph later edge scheduled := by
  obtain ⟨parts, same, each⟩ := schedules
  exact ⟨parts, same, each.imp fun _ _ scope => scope.extends_ extends_⟩

theorem scheduleEdge_schedules {edge : ExitEdge} {resolver later : Resolver}
    {scheduled : List ScheduledDestroy}
    (run : scheduleEdge hooks fuel graph edge resolver = .ok scheduled later) :
    SchedulesEdge hooks graph later edge scheduled := by
  obtain ⟨parts, last, mapped, run⟩ := bind_eq_ok.mp run
  obtain ⟨rfl, rfl⟩ := EStateM.Result.ok.inj run
  refine ⟨parts, rfl, ?_⟩
  refine mapM_tells (SchedulesScope hooks graph edge)
    (fun id => (leads_ofExcept _).bind fun _ => scheduleLocals_leads (extends_leadsQueries hooks) _)
    (fun id before after result run => ?_)
    (fun _ _ _ _ schedules extends_ => schedules.extends_ extends_) mapped
  obtain ⟨live, middle, looked, rest⟩ := bind_eq_ok.mp run
  exact ⟨live, (ofExcept_eq_ok.mp looked).1, scheduleLocals_schedules rest⟩

theorem edges_of_each {told : ExitEdge → List ScheduledDestroy → Prop}
    {edges : List ExitEdge} {byEdge : List (ExitEdge × List ScheduledDestroy)}
    (each : List.Forall₂ (fun edge entry => entry.1 = edge ∧ told edge entry.2) edges byEdge) :
    byEdge.map Prod.fst = edges := by
  induction each with
  | nil => rfl
  | cons here rest ih => rw [List.map_cons, here.1, ih]

/-- What is entered for an edge is found at its anchor when no two edges share one. -/
theorem atAnchor_of_each {told : ExitEdge → List ScheduledDestroy → Prop}
    {edges : List ExitEdge} {byEdge : List (ExitEdge × List ScheduledDestroy)}
    (each : List.Forall₂ (fun edge entry => entry.1 = edge ∧ told edge entry.2) edges byEdge)
    (distinct : (edges.map ExitEdge.anchor).Nodup) {edge : ExitEdge} (member : edge ∈ edges) :
    told edge (ExitSchedule.atAnchor ⟨graph, byEdge⟩ edge.anchor) := by
  unfold ExitSchedule.atAnchor
  dsimp only
  induction each with
  | nil => simp at member
  | @cons first entry edges byEdge here rest ih =>
      obtain ⟨rfl, tells⟩ := here
      rw [List.map_cons, List.nodup_cons] at distinct
      rcases List.mem_cons.mp member with rfl | behind
      · have none : byEdge.filter (·.1.anchor = entry.1.anchor) = [] := by
          refine List.filter_eq_nil_iff.mpr fun other inside same => ?_
          refine distinct.1 ?_
          rw [← of_decide_eq_true same, ← edges_of_each rest]
          exact List.mem_map_of_mem (List.mem_map_of_mem inside)
        simpa [none] using tells
      · have differ : entry.1.anchor ≠ edge.anchor := fun same =>
          distinct.1 (same ▸ List.mem_map_of_mem behind)
        simpa [differ] using ih distinct.2 behind

/-- What is scheduled at the anchor of an edge, when no two edges share one. -/
theorem schedule_atAnchor {resolver final : Resolver} {schedule : ExitSchedule}
    (run : ResolveM.schedule hooks fuel graph resolver = .ok schedule final)
    (distinct : (graph.edges.map ExitEdge.anchor).Nodup) {edge : ExitEdge}
    (member : edge ∈ graph.edges) :
    SchedulesEdge hooks graph final edge (schedule.atAnchor edge.anchor) := by
  obtain ⟨_, _, _, rest⟩ := bind_eq_ok.mp run
  obtain ⟨byEdge, last, mapped, rest⟩ := bind_eq_ok.mp rest
  obtain ⟨rfl, rfl⟩ := EStateM.Result.ok.inj rest
  have schedules (edge : ExitEdge) : (do
      return (edge, ← scheduleEdge hooks fuel graph edge) :
        ResolveM (ExitEdge × List ScheduledDestroy)).Preserves Extends :=
    Leads.bind (scheduleEdge_leads (extends_leadsQueries hooks) graph edge) fun _ => leads_pure _
  have each := mapM_tells
    (fun resolver edge (entry : ExitEdge × List ScheduledDestroy) =>
      entry.1 = edge ∧ SchedulesEdge hooks graph resolver edge entry.2) schedules
    (fun edge before after result run => by
      obtain ⟨scheduled, ended, scheduling, rest⟩ := bind_eq_ok.mp run
      obtain ⟨rfl, rfl⟩ := EStateM.Result.ok.inj rest
      exact ⟨rfl, scheduleEdge_schedules scheduling⟩)
    (fun _ _ _ _ told extends_ => ⟨told.1, told.2.extends_ extends_⟩) mapped
  exact atAnchor_of_each each distinct member

end ResolveM
end LifecycleHooks

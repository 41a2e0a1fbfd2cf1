import LifecycleHooks.Proofs.Lifting.Repetition
import LifecycleHooks.Proofs.Program.Lowering
import LifecycleHooks.Proofs.Scope.Frames
import LifecycleHooks.Proofs.Scope.Schedule

/-!
# Owned locals

A declaration that is reached declares a local of a scope, with the type of its binding.
Wherever the local is live on an exit edge that does not hand it over, its destruction is
scheduled, by the plan that the resolver gives for its type.
-/

namespace LifecycleHooks

open Attempt Resolver

/-- Where an execution goes on behind a fragment, so does the walk over it. -/
theorem Runs.continues {destroys : NodeId → List BindingId} {fragment : Fragment}
    {events : List LocalEvent} {exit : ExitKind} (runs : Runs destroys fragment events exit)
    {context : WalkContext} {frames : List Frame} {next : NextIds} {walk : Walk}
    (walks : Walks context frames next fragment walk) (passes : exit = .fallthrough) :
    walk.continues = true := by
  induction runs generalizing frames next walk with
  | declare =>
      cases walks
      exact Walk.ofDeclaration_continues ..
  | assign => cases walks; rfl
  | expr => cases walks; rfl
  | spawn => cases walks; rfl
  | «return» => cases passes
  | «break» => cases passes
  | «continue» => cases passes
  | block inside ih =>
      cases walks with
      | block walks => exact ih walks passes
  | branchYes note condition no inside ih =>
      cases walks with
      | branch => rfl
      | branchElse _ _ ifYes ifNo => simp [ih ifYes passes]
  | branchNo note condition yes inside ih =>
      cases walks with
      | branchElse _ _ ifYes ifNo => simp [ih ifNo passes]
  | branchPast => cases walks; rfl
  | loopDone => cases walks; rfl
  | loopAgain => cases walks; rfl
  | loopBreak => cases walks; rfl
  | loopReturn => cases passes
  | blockEnd isLoopBody note inside ih =>
      cases walks with
      | blockEnd _ walks goesOn => rfl
      | blockExit _ walks ends => cases ends.symm.trans (ih walks rfl)
  | blockExit isLoopBody note inside leaves => exact absurd passes leaves
  | nil => cases walks; rfl
  | next before behind beforeIH behindIH =>
      cases walks with
      | next first goesOn rest =>
          have continues := behindIH rest passes
          exact continues
      | stop _ first ends => cases ends.symm.trans (beforeIH first rfl)
  | stop statements before leaves => exact absurd passes leaves

/-- The locals that a walk finds: those of the scope it stands in, and those of the scopes
inside. -/
def Walk.allLocals (walk : Walk) : List Local :=
  walk.locals ++ walk.scopes.flatMap Scope.locals

theorem Walk.allLocals_subset {walk larger : Walk} (locals : walk.locals ⊆ larger.locals)
    (scopes : walk.scopes ⊆ larger.scopes) : walk.allLocals ⊆ larger.allLocals := by
  intro declared member
  rcases List.mem_append.mp member with here | inside
  · exact List.mem_append_left _ (locals here)
  · obtain ⟨scope, isScope, declares⟩ := List.mem_flatMap.mp inside
    exact List.mem_append_right _ (List.mem_flatMap.mpr ⟨scope, scopes isScope, declares⟩)

/-- A declaration that is reached declares a local, with the type of its binding. -/
theorem Reaches.declares {fragment : Fragment} {note : Note} {name : String} {value : Option Expr}
    {spelled : Option TypeId} {mutability : Bool} {id : BindingId} {type : TypeId}
    (reaches : Reaches (.declare note name value spelled mutability (some id)) fragment)
    {context : WalkContext} (known : context.bindingTypes.lookup id = some type)
    {frames : List Frame} {next : NextIds} {walk : Walk}
    (walks : Walks context frames next fragment walk) :
    ∃ order, ⟨id, name, type, order, note.id, note.span⟩ ∈ walk.allLocals := by
  induction reaches generalizing frames next walk with
  | here =>
      cases walks with
      | declare scope =>
          rw [Walk.ofDeclaration_typed known]
          exact ⟨scope.locals.length, List.mem_append_left _ (List.mem_singleton.mpr rfl)⟩
  | block inside ih =>
      cases walks with
      | block walks => exact ih walks
  | branchYes note condition no inside ih =>
      cases walks with
      | branch _ _ walks =>
          obtain ⟨order, member⟩ := ih walks
          exact ⟨order, member⟩
      | branchElse _ _ ifYes ifNo =>
          obtain ⟨order, member⟩ := ih ifYes
          exact ⟨order, Walk.allLocals_subset (by simp [ifYes.block_locals])
            (List.subset_append_left _ _) member⟩
  | branchNo note condition yes inside ih =>
      cases walks with
      | branchElse _ _ ifYes ifNo =>
          obtain ⟨order, member⟩ := ih ifNo
          exact ⟨order, Walk.allLocals_subset (by simp [ifNo.block_locals])
            (List.subset_append_right _ _) member⟩
  | loop note condition inside ih =>
      cases walks with
      | loop _ _ walks =>
          obtain ⟨order, member⟩ := ih walks
          exact ⟨order, member⟩
  | scope isLoopBody note inside ih =>
      cases walks with
      | blockEnd _ walks _ =>
          obtain ⟨order, member⟩ := ih walks
          exact ⟨order, member⟩
      | blockExit _ walks _ =>
          obtain ⟨order, member⟩ := ih walks
          exact ⟨order, member⟩
  | first statements inside ih =>
      cases walks with
      | next first goesOn rest =>
          obtain ⟨order, member⟩ := ih first
          exact ⟨order, Walk.allLocals_subset (List.subset_append_left _ _)
            (List.subset_append_left _ _) member⟩
      | stop _ first ends => exact ih first
  | behind passes inside ih =>
      cases walks with
      | next first goesOn rest =>
          obtain ⟨order, member⟩ := ih rest
          exact ⟨order, Walk.allLocals_subset (List.subset_append_right _ _)
            (List.subset_append_right _ _) member⟩
      | stop _ first ends => cases ends.symm.trans (passes.continues first rfl)

/-- Locals whose types are those of their bindings. -/
def TypedBy (types : BindingTypes) (locals : List Local) : Prop :=
  ∀ declared ∈ locals, types.lookup declared.binding = some declared.type

/-- In a body whose names are bound, every local has the type of its binding. -/
theorem Walks.typedBy {context : WalkContext} {frames : List Frame} {next : NextIds} {fragment : Fragment}
    {walk : Walk} {inLoop : Bool} {first after : BindingId} {visible seen : Names}
    (walks : Walks context frames next fragment walk) (binds : Binds inLoop first visible fragment after seen)
    (typed : ∀ id : Int, first ≤ id → id < after → (context.bindingTypes.lookup id).isSome) :
    TypedBy context.bindingTypes walk.allLocals := by
  induction walks generalizing inLoop first after visible seen with
  | declare scope outer next note name value type mutability binding =>
      cases binds with
      | declare =>
          have hasType := typed first (Int.le_refl _) (Int.lt_add_one_of_le (Int.le_refl _))
          obtain ⟨found, known⟩ := Option.isSome_iff_exists.mp hasType
          rw [Walk.ofDeclaration_typed known]
          simpa [TypedBy, Walk.allLocals] using known
  | assign => simp [TypedBy, Walk.allLocals]
  | expr => simp [TypedBy, Walk.allLocals]
  | spawn => simp [TypedBy, Walk.allLocals]
  | «return» => simp [TypedBy, Walk.allLocals, Walk.ofExit]
  | «break» => simp [TypedBy, Walk.allLocals, Walk.ofExit]
  | «continue» => simp [TypedBy, Walk.allLocals, Walk.ofExit]
  | block inside ih =>
      cases binds with
      | block binds => exact ih binds typed
  | branch note condition inside ih =>
      cases binds with
      | branch _ _ binds => exact ih binds typed
  | branchElse note condition ifYes ifNo yesIH noIH =>
      cases binds with
      | branchElse _ _ yes no =>
          have inYes := yesIH yes fun id above below => typed id above (Int.lt_of_lt_of_le below no.next_le)
          have inNo := noIH no fun id above below => typed id (Int.le_trans yes.next_le above) below
          simp only [TypedBy, Walk.allLocals, ifYes.block_locals, ifNo.block_locals, List.nil_append,
            List.flatMap_append] at inYes inNo ⊢
          exact List.forall_mem_append.mpr ⟨inYes, inNo⟩
  | loop note condition inside ih =>
      cases binds with
      | loop _ _ _ binds => exact ih binds typed
  | blockEnd note inside continues ih =>
      cases binds with
      | scope _ _ binds => exact ih binds typed
  | blockExit note inside ends ih =>
      cases binds with
      | scope _ _ binds => exact ih binds typed
  | nil => simp [TypedBy, Walk.allLocals]
  | next before goesOn behind beforeIH behindIH =>
      cases binds with
      | cons here later =>
          have inFirst := beforeIH here fun id above below => typed id above (Int.lt_of_lt_of_le below later.next_le)
          have inRest := behindIH later fun id above below => typed id (Int.le_trans here.next_le above) below
          intro declared member
          simp only [Walk.allLocals, List.flatMap_append, List.mem_append] at member
          rcases member with (inScope | inScope) | (inside | inside)
          · exact inFirst declared (List.mem_append_left _ inScope)
          · exact inRest declared (List.mem_append_left _ inScope)
          · exact inFirst declared (List.mem_append_right _ inside)
          · exact inRest declared (List.mem_append_right _ inside)
  | stop statements before ends ih =>
      cases binds with
      | cons here later =>
          exact ih here fun id above below => typed id above (Int.lt_of_lt_of_le below later.next_le)

namespace Resolver

/-- Destroying values of a type runs a hook, as a resolver answers. -/
def Destructible (hooks : Registry) (resolver : Resolver) (type : TypeId) : Prop :=
  ∃ fuel later, ResolveM.isDestructible hooks fuel type resolver = .ok true later

end Resolver

/-- A local is live on an exit edge: the edge unwinds its scope, and the local is among those
that are live there. -/
def ScopeGraph.IsLive (graph : ScopeGraph) (scope : ScopeId) (declared : Local) (edge : ExitEdge) : Prop :=
  scope ∈ edge.unwound ∧ ∃ live, graph.liveLocals edge scope = .ok live ∧ declared ∈ live

namespace ResolveM

variable {hooks : Registry} {fuel : Nat} {graph : ScopeGraph} {resolver final later : Resolver}
  {schedule : ExitSchedule} {edge : ExitEdge}

/-- The destruction of a local by the plan that a resolver gives for its type. -/
structure Plans (hooks : Registry) (fuel : Nat) (resolver : Resolver) (declared : Local)
    (destruction : ScheduledDestroy) : Prop where
  declares : destruction.declared = declared
  operation : resolve hooks fuel declared.type .destroy resolver = .ok destruction.operation resolver
  plan : expand hooks fuel declared.type .destroy declared.name resolver = .ok destruction.plan resolver

theorem scheduleLocal_repeats (hooks : Registry) (fuel : Nat) (declared : Local) :
    (scheduleLocal hooks fuel declared).Repeats Extends := by
  refine (resolve_repeats hooks fuel declared.type .destroy).bind fun operation => ?_
  split
  · exact repeats_pure _
  · exact (expandWithin_repeats hooks .destroy fuel [] declared.type declared.name).bind
      fun _ => repeats_pure _

theorem scheduleLocals_repeats (hooks : Registry) (fuel : Nat) (locals : List Local) :
    (locals.filterMapM (scheduleLocal hooks fuel)).Repeats Extends := by
  rw [filterMapM_eq]
  exact (repeats_mapM (scheduleLocal_repeats hooks fuel)).bind fun _ => repeats_pure _

theorem scheduleEdge_repeats (hooks : Registry) (fuel : Nat) (graph : ScopeGraph) (edge : ExitEdge) :
    (scheduleEdge hooks fuel graph edge).Repeats Extends :=
  (repeats_mapM fun _ => (repeats_ofExcept _).bind fun _ => scheduleLocals_repeats hooks fuel _).bind
    fun _ => repeats_pure _

/-- For a local whose destruction runs a hook a destruction is scheduled. -/
theorem scheduleLocal_plans {declared : Local} {scheduled : Option ScheduledDestroy}
    (run : scheduleLocal hooks fuel declared resolver = .ok scheduled later)
    (destructible : later.Destructible hooks declared.type) :
    ∃ destruction, scheduled = some destruction ∧ Plans hooks fuel later declared destruction := by
  obtain ⟨operation, middle, resolving, run⟩ := bind_eq_ok.mp run
  have onwards : middle.Extends later := by
    split at run
    · obtain ⟨-, rfl⟩ := EStateM.Result.ok.inj run
      exact Extends.refl middle
    · obtain ⟨plan, last, expanding, run⟩ := bind_eq_ok.mp run
      obtain ⟨-, rfl⟩ := EStateM.Result.ok.inj run
      exact (expand_extends _ _ _).of_ok expanding
  have again := (resolve_repeats hooks fuel declared.type .destroy).again resolving onwards
  obtain ⟨knows, runs⟩ := resolve_knows again
  have hooked : operation.isBuiltIn = false := by
    obtain ⟨more, last, answered⟩ := destructible
    rw [isDestructible_known knows, runs] at answered
    simpa using (EStateM.Result.ok.inj answered).1
  rw [hooked] at run
  obtain ⟨plan, last, expanding, run⟩ := bind_eq_ok.mp run
  obtain ⟨rfl, rfl⟩ := EStateM.Result.ok.inj run
  exact ⟨_, rfl, rfl, again,
    (expandWithin_repeats hooks .destroy fuel [] _ _).again expanding (Extends.refl last)⟩

/-- On an edge a destruction is scheduled for each local that is live there, not handed
over, and whose destruction runs a hook. -/
theorem scheduleEdge_plans {scheduled : List ScheduledDestroy}
    (run : scheduleEdge hooks fuel graph edge resolver = .ok scheduled later) {scope : ScopeId}
    {declared : Local} (isLive : graph.IsLive scope declared edge)
    (kept : declared.binding ∉ edge.consumed) (destructible : later.Destructible hooks declared.type) :
    ∃ destruction ∈ scheduled, Plans hooks fuel later declared destruction := by
  obtain ⟨unwound, live, isLiveList, member⟩ := isLive
  obtain ⟨parts, last, mapped, run⟩ := bind_eq_ok.mp run
  obtain ⟨rfl, rfl⟩ := EStateM.Result.ok.inj run
  have scopes := mapM_each_again
    (fun id => (repeats_ofExcept _).bind fun _ => scheduleLocals_repeats hooks fuel _) mapped
    (Extends.refl last)
  obtain ⟨part, isPart, inScope⟩ := TypeTree.exists_of_mem_forall₂ scopes.flip scope unwound
  obtain ⟨others, middle, looked, inScope⟩ := bind_eq_ok.mp inScope
  obtain ⟨same, rfl⟩ := ofExcept_eq_ok.mp looked
  obtain rfl := Except.ok.inj (isLiveList.symm.trans same)
  rw [filterMapM_eq] at inScope
  obtain ⟨found, ended, mapped, inScope⟩ := bind_eq_ok.mp inScope
  obtain ⟨rfl, rfl⟩ := EStateM.Result.ok.inj inScope
  have locals := mapM_each_again (scheduleLocal_repeats hooks fuel) mapped (Extends.refl ended)
  obtain ⟨one, isOne, scheduling⟩ := TypeTree.exists_of_mem_forall₂ locals.flip declared
    (List.mem_filter.mpr ⟨member, by simpa using kept⟩)
  obtain ⟨destruction, rfl, plans⟩ := scheduleLocal_plans scheduling destructible
  exact ⟨destruction, List.mem_flatten_of_mem isPart (List.mem_filterMap.mpr ⟨_, isOne, rfl⟩), plans⟩

/-- What is entered for an edge is found by its number when no two edges share one. -/
theorem onEdge_of_each (told : ExitEdge → List ScheduledDestroy → Prop)
    {edges : List ExitEdge} {byEdge : List (ExitEdge × List ScheduledDestroy)}
    (each : List.Forall₂ (fun edge entry => entry.1 = edge ∧ told edge entry.2) edges byEdge)
    (distinct : (edges.map ExitEdge.id).Nodup) (member : edge ∈ edges) :
    told edge (ExitSchedule.onEdge ⟨graph, byEdge⟩ edge.id) := by
  obtain ⟨entry, entered, rfl, tells⟩ := TypeTree.exists_of_mem_forall₂ each.flip edge member
  have keys : (byEdge.map fun entry => entry.1.id).Nodup := by
    rw [← edges_of_each each, List.map_map] at distinct
    exact distinct
  have found := find?_key (fun entry : ExitEdge × List ScheduledDestroy => entry.1.id) keys entered
  unfold ExitSchedule.onEdge
  rw [found]
  exact tells

/-- On every edge of a schedule the locals that are live there, not handed over, and whose
destruction runs a hook are destroyed, as the resolver answers in the end. -/
theorem schedule_plans (run : ResolveM.schedule hooks fuel graph resolver = .ok schedule final)
    (distinct : (graph.edges.map ExitEdge.id).Nodup) (extends_ : final.Extends later)
    (inGraph : edge ∈ graph.edges) {scope : ScopeId} {declared : Local}
    (isLive : graph.IsLive scope declared edge) (kept : declared.binding ∉ edge.consumed)
    (destructible : later.Destructible hooks declared.type) :
    ∃ destruction ∈ schedule.onEdge edge.id, Plans hooks fuel later declared destruction := by
  obtain ⟨_, _, _, rest⟩ := bind_eq_ok.mp run
  obtain ⟨byEdge, last, mapped, rest⟩ := bind_eq_ok.mp rest
  obtain ⟨rfl, rfl⟩ := EStateM.Result.ok.inj rest
  have each := mapM_each_again
    (fun edge => (scheduleEdge_repeats hooks fuel graph edge).bind fun _ => repeats_pure _) mapped extends_
  refine onEdge_of_each (fun edge scheduled => ∀ scope declared,
    graph.IsLive scope declared edge → declared.binding ∉ edge.consumed →
    later.Destructible hooks declared.type →
    ∃ destruction ∈ scheduled, Plans hooks fuel later declared destruction)
    (each.imp fun edge entry entered => ?_) distinct inGraph scope declared isLive kept destructible
  obtain ⟨scheduled, ended, scheduling, rest⟩ := bind_eq_ok.mp entered
  obtain ⟨rfl, rfl⟩ := EStateM.Result.ok.inj rest
  exact ⟨rfl, fun _ _ => scheduleEdge_plans scheduling⟩

theorem schedule_graph (run : ResolveM.schedule hooks fuel graph resolver = .ok schedule final) :
    schedule.graph = graph := by
  obtain ⟨_, _, _, rest⟩ := bind_eq_ok.mp run
  obtain ⟨byEdge, last, mapped, rest⟩ := bind_eq_ok.mp rest
  obtain ⟨rfl, rfl⟩ := EStateM.Result.ok.inj rest
  rfl

end ResolveM
end LifecycleHooks

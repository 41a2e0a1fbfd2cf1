import LifecycleHooks.Proofs.Lifting.HookPath

/-!
# Resolved operations are the effective ones

Each operation that a resolver keeps is explained by its state: a built-in operation
by a region without hooks, an overridden one by the hook, a lifted one by a path to a
hook.  Resolving keeps it so whatever was asked before, and hence the operations
kept from earlier queries never change an answer.
-/

namespace LifecycleHooks
namespace Resolver

open Attempt ResolveM

/-- Why the operation on a type comes out as it does. -/
inductive Explained (hooks : Registry) (kind : OpKind) (resolver : Resolver) (id : TypeId) :
    Outcome → Prop where
  | builtIn (unhooked : resolver.Unhooked hooks kind id) :
      Explained hooks kind resolver id .builtIn
  | overridden {entry : HookEntry} (clear : resolver.Clear id)
      (hook : resolver.table.Overridden hooks kind id entry) :
      Explained hooks kind resolver id (.overridden entry)
  | lifted {slots : List Slot} {takesPart : Slot → Bool} (clear : resolver.Clear id)
      (unbound : resolver.table.governingHook? hooks id kind = .ok none)
      (parts : relevantSlots id kind resolver = .ok slots resolver)
      (path : HookPath hooks kind resolver resolver.Clear id)
      (chosen : ∀ slot ∈ slots, takesPart slot = true →
        HookPath hooks kind resolver resolver.Clear slot.type)
      (leftOut : ∀ slot ∈ slots, takesPart slot = false → resolver.Unhooked hooks kind slot.type) :
      Explained hooks kind resolver id (.lifted (orderSteps kind (slots.filter takesPart)))

/-- No exploration is going on, and every operation that was kept is explained. -/
structure Ready (hooks : Registry) (resolver : Resolver) : Prop where
  idle : resolver.Idle
  explained : ∀ id kind outcome, resolver.operations.lookup (id, kind) = some outcome →
    Explained hooks kind resolver id outcome

section Persistence

variable {hooks : Registry} {kind : OpKind} {resolver later : Resolver} {id : TypeId}

theorem Explained.extends_ {outcome : Outcome} (idle : resolver.Idle)
    (extends_ : resolver.Extends later) (explained : Explained hooks kind resolver id outcome) :
    Explained hooks kind later id outcome := by
  have keepsClear : ∀ id, resolver.Clear id → later.Clear id := fun _ clear =>
    clear.extends_ idle extends_
  cases explained with
  | builtIn unhooked => exact .builtIn (unhooked.extends_ idle extends_)
  | overridden clear hook =>
      exact .overridden (keepsClear id clear) (Overridden.extends_ extends_ hook)
  | lifted clear unbound parts path chosen leftOut =>
      exact .lifted (keepsClear id clear)
        (TypeTable.stable_governingHook? hooks id kind _ _ _ extends_.table unbound)
        (relevantSlots_kept parts extends_.table) (path.extends_ extends_ keepsClear)
        (fun slot member takes => (chosen slot member takes).extends_ extends_ keepsClear)
        (fun slot member leaves => (leftOut slot member leaves).extends_ idle extends_)

theorem Ready.consults (ready : resolver.Ready hooks) (consults : resolver.Consults later) :
    later.Ready hooks where
  idle := ready.idle.extends_ consults.toExtends
  explained id kind outcome known := by
    rw [consults.unresolved] at known
    exact (ready.explained id kind outcome known).extends_ ready.idle consults.toExtends

end Persistence

section Searching

variable {hooks : Registry} {kind : OpKind} {resolver final : Resolver} {id : TypeId} {fuel : Nat}

theorem Explained.hookPath {outcome : Outcome}
    (explained : Explained hooks kind resolver id outcome) (notBuiltIn : outcome.isBuiltIn = false) :
    HookPath hooks kind resolver resolver.Clear id := by
  cases explained with
  | builtIn unhooked => cases notBuiltIn
  | overridden clear hook => exact .overridden clear hook
  | lifted clear unbound parts path => exact path

theorem Explained.unhooked {outcome : Outcome}
    (explained : Explained hooks kind resolver id outcome) (builtIn : outcome.isBuiltIn = true) :
    resolver.Unhooked hooks kind id := by
  cases explained with
  | builtIn unhooked => exact unhooked
  | overridden clear hook => cases builtIn
  | lifted clear unbound parts path => cases builtIn

/-- A type that the search for a hook went past, and the types it went on to. -/
inductive Passed (hooks : Registry) (kind : OpKind) (resolver : Resolver) (id : TypeId) :
    List TypeId → Prop where
  | unhooked (unhooked : resolver.Unhooked hooks kind id) : Passed hooks kind resolver id []
  | clear {slots : List Slot} (clear : resolver.Clear id)
      (unbound : resolver.table.governingHook? hooks id kind = .ok none)
      (parts : relevantSlots id kind resolver = .ok slots resolver) :
      Passed hooks kind resolver id (typesBackwards slots)

theorem Held.unhooked (held : resolver.Held id) : resolver.Unhooked hooks kind id :=
  ⟨(· = id), rfl, by rintro other rfl; exact .held held⟩

/-- What a visit of the search for a hook tells about the type visited. -/
theorem visitForHook_tells {found : Option (List TypeId)} (ready : resolver.Ready hooks)
    (run : visitForHook hooks kind fuel id resolver = .ok found final) :
    match found with
    | none => HookPath hooks kind final final.Clear id
    | some next => Passed hooks kind final id next := by
  unfold visitForHook at run
  obtain ⟨unresolvable, settled, asking, run⟩ := bind_eq_ok.mp run
  have verdict := settled_of_run ready.idle asking
  have settles := ready.consults ((isUnresolvable_consults fuel id).of_ok asking)
  cases unresolvable with
  | true =>
      obtain ⟨rfl, rfl⟩ := EStateM.Result.ok.inj run
      exact .unhooked verdict.unhooked
  | false =>
      rw [if_neg (by simp), known?_bind_run] at run
      cases known : settled.operations.lookup (id, kind) with
      | some outcome =>
          have explained := settles.explained id kind outcome known
          rw [known] at run
          obtain ⟨answer, rfl⟩ := EStateM.Result.ok.inj run
          cases builtIn : outcome.isBuiltIn with
          | true =>
              obtain rfl : some [] = found := by simpa [builtIn] using answer
              exact .unhooked (explained.unhooked builtIn)
          | false =>
              obtain rfl : none = found := by simpa [builtIn] using answer
              exact explained.hookPath builtIn
      | none =>
          rw [known] at run
          obtain ⟨entry, middle, asked, run⟩ := bind_eq_ok.mp run
          obtain ⟨governs, unchanged⟩ := ask_eq_ok.mp asked
          rw [unchanged] at run
          cases entry with
          | some entry =>
              obtain ⟨rfl, rfl⟩ := EStateM.Result.ok.inj run
              exact .overridden verdict (TypeTable.governingHook?_eq_ok_some.mp governs)
          | none =>
              obtain ⟨slots, middle, worked, run⟩ := bind_eq_ok.mp run
              obtain ⟨rfl, rfl⟩ := EStateM.Result.ok.inj run
              have works := ((relevantSlots_consults id kind).of_ok worked).toExtends
              exact .clear (verdict.extends_ settles.idle works)
                (TypeTable.stable_governingHook? hooks id kind _ _ _ works.table governs)
                (relevantSlots_kept worked (.refl _))

theorem Passed.extends_ {later : Resolver} {next : List TypeId} (idle : resolver.Idle)
    (extends_ : resolver.Extends later) (passed : Passed hooks kind resolver id next) :
    Passed hooks kind later id next := by
  cases passed with
  | unhooked unhooked => exact .unhooked (unhooked.extends_ idle extends_)
  | clear clear unbound parts =>
      exact .clear (clear.extends_ idle extends_)
        (TypeTable.stable_governingHook? hooks id kind _ _ _ extends_.table unbound)
        (relevantSlots_kept parts extends_.table)

theorem Passed.hookPath {next : List TypeId} {other : TypeId}
    (passed : Passed hooks kind resolver id next) (member : other ∈ next)
    (path : HookPath hooks kind resolver resolver.Clear other) :
    HookPath hooks kind resolver resolver.Clear id := by
  cases passed with
  | unhooked unhooked => cases member
  | clear clear unbound parts =>
      obtain ⟨slot, isSlot, rfl⟩ := mem_typesBackwards.mp member
      exact .constituent clear parts isSlot path

/-- A search that ends early has found a path to a hook. -/
theorem hookPath_of_search (ready : resolver.Ready hooks)
    (run : searchHook hooks kind fuel [] [id] resolver = .ok true final) :
    HookPath hooks kind final final.Clear id := by
  rw [searchHook_eq_search] at run
  obtain ⟨other, member, path⟩ := search_found
    (roams_of_preserves (visitForHook_consults hooks kind) fun _ _ holds consults => Ready.consults holds consults)
    (fun less id _ _ _ holds _ run => visitForHook_tells holds run)
    (fun fuel id next resolver middle later _ holds _ run consults other member path => by
      have passed : Passed hooks kind middle id next := visitForHook_tells holds run
      have settles := holds.consults ((visitForHook_consults hooks kind fuel id).of_ok run)
      exact (passed.extends_ settles.idle consults.toExtends).hookPath member path)
    ready (fun _ _ => trivial) run
  rwa [List.mem_singleton.mp member] at path

/-- A search that comes to its end has seen a region without hooks. -/
theorem unhooked_of_search (ready : resolver.Ready hooks)
    (run : searchHook hooks kind fuel [] [id] resolver = .ok false final) :
    final.Unhooked hooks kind id := by
  rw [searchHook_eq_search] at run
  obtain ⟨region, covers, closed⟩ := search_exhausted
    (roams_of_preserves (visitForHook_consults hooks kind) fun _ _ holds consults => Ready.consults holds consults)
    (fun fuel id next resolver middle later _ holds _ run consults => by
      have passed : Passed hooks kind middle id next := visitForHook_tells holds run
      have settles := holds.consults ((visitForHook_consults hooks kind fuel id).of_ok run)
      exact passed.extends_ settles.idle consults.toExtends)
    ready (fun _ _ => trivial) run
  -- What was unhooked before the search brings its own region along.
  refine ⟨fun other => other ∈ region ∨ final.Unhooked hooks kind other,
    .inl ((covers id (by simp)).resolve_left (by simp)), fun other inside => ?_⟩
  have widen {other : TypeId} (unhooked : final.Unhooked hooks kind other) :
      Barren hooks kind final (fun other => other ∈ region ∨ final.Unhooked hooks kind other)
        other := by
    obtain ⟨own, member, barren⟩ := unhooked
    cases barren other member with
    | held held => exact .held held
    | clear clear unbound parts inside =>
        exact .clear clear unbound parts fun slot isSlot =>
          .inr ⟨own, inside slot isSlot, barren⟩
  rcases inside with inRegion | unhooked
  · obtain ⟨next, passed, leads⟩ := closed other inRegion
    cases passed with
    | unhooked unhooked => exact widen unhooked
    | clear clear unbound parts =>
        refine .clear clear unbound parts fun slot isSlot => .inl ?_
        exact (leads slot.type (mem_typesBackwards.mpr ⟨slot, isSlot, rfl⟩)).resolve_left (by simp)
  · exact widen unhooked

/-- Whether a hook is reached is told rightly, whatever was resolved before. -/
theorem reachesHook_tells {answer : Bool} (ready : resolver.Ready hooks)
    (run : reachesHook hooks fuel id kind resolver = .ok answer final) :
    if answer then HookPath hooks kind final final.Clear id
    else final.Unhooked hooks kind id := by
  unfold reachesHook at run
  rw [known?_bind_run] at run
  cases known : resolver.operations.lookup (id, kind) with
  | some outcome =>
      have explained := ready.explained id kind outcome known
      rw [known] at run
      obtain ⟨rfl, rfl⟩ := EStateM.Result.ok.inj run
      cases builtIn : outcome.isBuiltIn with
      | true => exact explained.unhooked builtIn
      | false => exact explained.hookPath builtIn
  | none =>
      rw [known] at run
      cases answer with
      | true => exact hookPath_of_search ready run
      | false => exact unhooked_of_search ready run

theorem Unhooked.no_clear_path (ready : resolver.Ready hooks)
    (unhooked : resolver.Unhooked hooks kind id) :
    ¬ HookPath hooks kind resolver resolver.Clear id := fun path =>
  unhooked.no_path ready.idle (.refl resolver)
    (path.extends_ (.refl resolver) fun _ clear => clear.resolvable)

theorem reachingSlots_consults (fuel : Nat) (slots : List Slot) :
    (slots.filterM fun slot => reachesHook hooks fuel slot.type kind).Preserves Consults :=
  leads_filterM fun slot _ => reachesHook_consults hooks fuel slot.type kind

/-- The constituents from which a hook is reached are told rightly. -/
theorem reachingSlots_tells {slots steps : List Slot} (ready : resolver.Ready hooks)
    (run : slots.filterM (fun slot => reachesHook hooks fuel slot.type kind) resolver =
      .ok steps final) :
    ∃ takesPart : Slot → Bool, steps = slots.filter takesPart ∧
      (∀ slot ∈ slots, takesPart slot = true →
        HookPath hooks kind final final.Clear slot.type) ∧
      (∀ slot ∈ slots, takesPart slot = false → final.Unhooked hooks kind slot.type) := by
  obtain ⟨takesPart, takes, kept, others⟩ := filterM_keeps
    (fun after (slot : Slot) => HookPath hooks kind after after.Clear slot.type)
    (fun after (slot : Slot) => after.Unhooked hooks kind slot.type)
    (fun slot _ => reachesHook_consults hooks fuel slot.type kind) (fun _ _ => Ready.consults)
    (fun slot _ before after passes ready run => reachesHook_tells ready run)
    (fun slot before after ready consults =>
      ⟨fun path => path.extends_ consults.toExtends fun _ clear =>
          clear.extends_ ready.idle consults.toExtends,
        fun unhooked => unhooked.extends_ ready.idle consults.toExtends⟩)
    (fun slot before => Unhooked.no_clear_path) ready run
  exact ⟨takesPart, kept, fun slot _ chosen => (takes slot).mp chosen,
    fun slot member leftOut => (others slot member).resolve_left (by simp [leftOut])⟩

theorem determine_explained {outcome : Outcome} (ready : resolver.Ready hooks)
    (run : determine hooks fuel id kind resolver = .ok outcome final) :
    Explained hooks kind final id outcome := by
  unfold determine at run
  obtain ⟨unresolvable, settled, asking, run⟩ := bind_eq_ok.mp run
  have verdict := settled_of_run ready.idle asking
  have settles := ready.consults ((isUnresolvable_consults fuel id).of_ok asking)
  cases unresolvable with
  | true =>
      obtain ⟨rfl, rfl⟩ := EStateM.Result.ok.inj run
      exact .builtIn verdict.unhooked
  | false =>
      obtain ⟨entry, middle, asked, run⟩ := bind_eq_ok.mp run
      obtain ⟨governs, unchanged⟩ := ask_eq_ok.mp asked
      rw [unchanged] at run
      cases entry with
      | some entry =>
          obtain ⟨rfl, rfl⟩ := EStateM.Result.ok.inj run
          exact .overridden verdict (TypeTable.governingHook?_eq_ok_some.mp governs)
      | none =>
          obtain ⟨slots, worked, working, run⟩ := bind_eq_ok.mp run
          have works := (relevantSlots_consults id kind).of_ok working
          have workedReady := settles.consults works
          have parts := relevantSlots_kept working (.refl _)
          have clear := verdict.extends_ settles.idle works.toExtends
          have unbound := TypeTable.stable_governingHook? hooks id kind _ _ _
            works.toExtends.table governs
          split at run
          · rename_i isEmpty
            obtain ⟨rfl, rfl⟩ := EStateM.Result.ok.inj run
            refine .builtIn ⟨(· = id), rfl, ?_⟩
            rintro other rfl
            exact .clear clear unbound parts (by simp [List.isEmpty_iff.mp isEmpty])
          · obtain ⟨reaches, searched, searching, run⟩ := bind_eq_ok.mp run
            have searches := (reachesHook_consults hooks fuel id kind).of_ok searching
            have searchedReady := workedReady.consults searches
            have told := reachesHook_tells workedReady searching
            cases reaches with
            | false =>
                obtain ⟨rfl, rfl⟩ := EStateM.Result.ok.inj run
                exact .builtIn told
            | true =>
                obtain ⟨steps, filtered, filtering, run⟩ := bind_eq_ok.mp run
                obtain ⟨rfl, rfl⟩ := EStateM.Result.ok.inj run
                have filters := (reachingSlots_consults fuel slots).of_ok filtering
                have onwards := searches.toExtends.trans filters.toExtends
                have path : HookPath hooks kind searched searched.Clear id := told
                obtain ⟨takesPart, rfl, chosen, leftOut⟩ := reachingSlots_tells searchedReady filtering
                exact .lifted (clear.extends_ workedReady.idle onwards)
                  (TypeTable.stable_governingHook? hooks id kind _ _ _ onwards.table unbound)
                  (relevantSlots_kept parts onwards.table)
                  (path.extends_ filters.toExtends fun _ clear =>
                    clear.extends_ searchedReady.idle filters.toExtends)
                  chosen leftOut

end Searching

section Resolving

variable {hooks : Registry}

/-- What was resolved is explained, and so is what was resolved before. -/
theorem resolve_explained {fuel : Nat} {id : TypeId} {kind : OpKind} {resolver final : Resolver}
    {operation : Operation} (ready : resolver.Ready hooks)
    (run : resolve hooks fuel id kind resolver = .ok operation final) :
    final.Ready hooks ∧ operation.type = id ∧ operation.kind = kind ∧
      Explained hooks kind final id operation.outcome := by
  unfold resolve at run
  split at run
  · cases run
  · rw [known?_bind_run] at run
    cases known : resolver.operations.lookup (id, kind) with
    | some outcome =>
        rw [known] at run
        obtain ⟨rfl, rfl⟩ := EStateM.Result.ok.inj run
        exact ⟨ready, rfl, rfl, ready.explained id kind outcome known⟩
    | none =>
        rw [known] at run
        obtain ⟨outcome, determined, determining, run⟩ := bind_eq_ok.mp run
        rw [modify_bind_run] at run
        obtain ⟨rfl, rfl⟩ := EStateM.Result.ok.inj run
        have consults := (determine_consults hooks fuel id kind).of_ok determining
        have determines := ready.consults consults
        have explained := determine_explained ready determining
        have stillUnknown := consults.unresolved ▸ known
        have keeps : determined.Extends
            { determined with operations := ((id, kind), outcome) :: determined.operations } :=
          extends_keep stillUnknown
        refine ⟨⟨determines.idle.extends_ keeps, fun other otherKind otherOutcome found => ?_⟩,
          rfl, rfl, explained.extends_ determines.idle keeps⟩
        by_cases same : (other, otherKind) = (id, kind)
        · obtain ⟨rfl, rfl⟩ := Prod.mk.inj same
          obtain rfl : outcome = otherOutcome := by simpa using found
          exact explained.extends_ determines.idle keeps
        · rw [lookup_cons_of_ne same] at found
          exact (determines.explained other otherKind otherOutcome found).extends_
            determines.idle keeps

/-- A resolver that is ready if another one is. -/
def StaysReady (hooks : Registry) (resolver later : Resolver) : Prop :=
  resolver.Ready hooks → later.Ready hooks

instance : IsPreorder Resolver (StaysReady hooks) where
  refl _ ready := ready
  trans _ _ _ first second ready := second (first ready)

/-- Resolving leaves the resolver ready, whether it succeeds or not. -/
theorem resolve_ready (fuel : Nat) (id : TypeId) (kind : OpKind) :
    (resolve hooks fuel id kind).Preserves (StaysReady hooks) := by
  intro resolver
  cases run : resolve hooks fuel id kind resolver with
  | ok operation final => exact fun ready => (resolve_explained ready run).1
  | error fault final =>
      intro ready
      unfold resolve at run
      split at run
      · obtain ⟨_, rfl⟩ := EStateM.Result.error.inj run
        exact ready
      · rw [known?_bind_run] at run
        cases known : resolver.operations.lookup (id, kind) with
        | some outcome =>
            rw [known] at run
            cases run
        | none =>
            rw [known] at run
            dsimp only at run
            rw [bind_run] at run
            cases determining : determine hooks fuel id kind resolver with
            | ok outcome determined =>
                rw [determining] at run
                cases run
            | error fault' determined =>
                rw [determining] at run
                obtain ⟨_, rfl⟩ := EStateM.Result.error.inj run
                exact ready.consults (Leads.of_error (determine_consults hooks fuel id kind) determining)

/-- Whatever is asked next, the resolver stays ready. -/
theorem ready_leadsQueries (hooks : Registry) : LeadsQueries hooks (StaysReady hooks) (StaysReady hooks) :=
  leadsQueries_of_consults (fun _ _ consults ready => ready.consults consults) resolve_ready

/-- A resolver that starts with nothing but a type table is ready, and it stays so
whatever it is asked. -/
theorem Reached.ready {table : TypeTable} {resolver : Resolver}
    (reached : Reached hooks { table := table } resolver) : resolver.Ready hooks := by
  have fresh : Ready hooks { table := table } :=
    ⟨⟨rfl, by simp⟩, fun id kind outcome known => by cases known⟩
  have stays : StaysReady hooks { table := table } resolver :=
    reached.preserves (fun _ _ consults ready => ready.consults consults) resolve_ready
  exact stays fresh

end Resolving
end Resolver
end LifecycleHooks

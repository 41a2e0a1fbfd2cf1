import LifecycleHooks.Proofs.Lifting.PathOrder
import LifecycleHooks.Proofs.Lifting.PlannedCalls

/-!
# The order of planned calls

The calls of a plan are matched with the paths of the plain recursion.  Calls that follow
the recursion some levels deep list the hooks that stand at its paths in the order of the
paths, and what they leave out lies behind a call of a lifted operation.
-/

namespace LifecycleHooks
namespace Resolver

open Attempt ResolveM

section Paths

variable (hooks : Registry) (kind : OpKind) (resolver : Resolver)

/-- What stands at the end of a path of the plain recursion: a call of the hook there, or
a call of the lifted operation for all that follows. -/
inductive StandsAt : TypeId → (place : String) → (path : List Nat) → PlannedCall → Prop where
  | hook {id : TypeId} {place : String} {entry : HookEntry}
      (operates : resolver.Operates hooks id kind (.overridden entry)) :
      StandsAt id place [] (.ofHook ⟨place, id, entry⟩)
  | lifted {id : TypeId} {place : String} : StandsAt id place [] ⟨[], .lifted place id kind⟩
  | step {id : TypeId} {place : String} {calls : List HookCall} {branches : List Branch} {turn : Nat}
      {branch : Branch} {turns : List Nat} {call : PlannedCall}
      (level : Level hooks kind resolver id place calls branches) (taken : branches[turn]? = some branch)
      (rest : StandsAt branch.type branch.place turns call) :
      StandsAt id place (turn :: turns) (call.inside branch.loops)

/-- What stands at the end of a path that starts with the choice of a value. -/
abbrev StandsBehind : (branches : List Branch) → (path : List Nat) → PlannedCall → Prop :=
  StandsAmong (fun branch => StandsAt hooks kind resolver branch.type branch.place)
    fun branch => PlannedCall.inside branch.loops

end Paths

section Listing

variable {hooks : Registry} {kind : OpKind} {resolver : Resolver} {id : TypeId} {place : String}

theorem not_isHook_lifted {loops : List Loop} {type : TypeId} :
    ¬ PlannedCall.isHook ⟨loops, .lifted place type kind⟩ := by
  rintro ⟨hook, isLifted⟩
  cases isLifted

theorem isHook_ofHook (call : HookCall) : (PlannedCall.ofHook call).isHook := ⟨call, rfl⟩

/-- Opening a value lists its hook and what follows it. -/
theorem lists_opened {hookCalls : List HookCall} {branches : List Branch} {least : Nat}
    {marked : List (List Nat × PlannedCall)} (level : Level hooks kind resolver id place hookCalls branches)
    (lists : Lists PlannedCall.isHook (StandsBehind hooks kind resolver branches) least marked) :
    Lists PlannedCall.isHook (StandsAt hooks kind resolver id place) least
      ((hookCalls.map PlannedCall.ofHook).map (fun call => ([], call)) ++ marked) := by
  refine lists_here ?few ?found ?here ?onwards ?only lists
  case few => simpa using level.length_calls_le
  case found =>
    intro call member
    obtain ⟨hook, _, rfl⟩ := List.mem_map.mp member
    exact isHook_ofHook hook
  case here =>
    intro call member
    obtain ⟨hook, isHook, rfl⟩ := List.mem_map.mp member
    obtain ⟨entry, operates, rfl⟩ := level.mem_calls_iff.mp isHook
    exact .hook operates
  case onwards =>
    intro path call standing
    cases standing with
    | taken taken standing => exact ⟨List.cons_ne_nil _ _, .step level taken standing⟩
  case only =>
    intro path call isHook stands
    cases stands with
    | hook operates => exact .inl ⟨rfl, List.mem_map_of_mem (level.mem_calls_iff.mpr ⟨_, operates, rfl⟩)⟩
    | lifted => exact absurd isHook not_isHook_lifted
    | step otherwise taken rest =>
        obtain ⟨rfl, rfl⟩ := level.unique otherwise
        exact .inr (.taken taken rest)

end Listing

/-- Calls that follow the plain recursion at least so many levels deep, before calls of
lifted operations stand for the rest. -/
inductive Spells (hooks : Registry) (kind : OpKind) (resolver : Resolver) :
    (levels : Nat) → List Branch → List PlannedCall → Prop where
  | done {levels : Nat} : Spells hooks kind resolver levels [] []
  | deferred {branch : Branch} {rest : List Branch} {calls : List PlannedCall}
      (kept : (resolver.operations.lookup (branch.type, kind)).isSome = true)
      (others : Spells hooks kind resolver 0 rest calls) :
      Spells hooks kind resolver 0 (branch :: rest)
        (⟨branch.loops, .lifted branch.place branch.type kind⟩ :: calls)
  | opened {levels : Nat} {branch : Branch} {rest inner : List Branch} {hookCalls : List HookCall}
      {innerCalls calls : List PlannedCall}
      (kept : (resolver.operations.lookup (branch.type, kind)).isSome = true)
      (level : Level hooks kind resolver branch.type branch.place hookCalls inner)
      (insides : Spells hooks kind resolver (levels - 1) inner innerCalls)
      (others : Spells hooks kind resolver levels rest calls) :
      Spells hooks kind resolver levels (branch :: rest)
        ((hookCalls.map PlannedCall.ofHook ++ innerCalls).map (PlannedCall.inside branch.loops) ++ calls)

section Spelling

variable {hooks : Registry} {kind : OpKind} {resolver : Resolver}

theorem Spells.lists {levels : Nat} {branches : List Branch} {calls : List PlannedCall}
    (spells : Spells hooks kind resolver levels branches calls) :
    ∃ marked, marked.map Prod.snd = calls ∧
      Lists PlannedCall.isHook (StandsBehind hooks kind resolver branches) (levels + 1) marked := by
  have kept (branch : Branch) (call : PlannedCall) : (call.inside branch.loops).isHook ↔ call.isHook := .rfl
  induction spells with
  | done => exact ⟨[], rfl, lists_nil _⟩
  | deferred _ _ ih =>
      obtain ⟨others, rfl, behind⟩ := ih
      exact ⟨_, by simp [PlannedCall.inside], lists_cons (kept _) (lists_cut .lifted not_isHook_lifted) behind⟩
  | @opened levels branch rest inner hookCalls _ _ _ level _ _ insideIh othersIh =>
      obtain ⟨insides, rfl, below⟩ := insideIh
      obtain ⟨others, rfl, behind⟩ := othersIh
      have own := (lists_opened level below).mono (by omega : levels ≤ levels - 1 + 1)
      exact ⟨_, by simp [Function.comp_def], lists_cons (kept branch) own behind⟩

theorem Spells.mono {levels fewer : Nat} {branches : List Branch} {calls : List PlannedCall}
    (spells : Spells hooks kind resolver levels branches calls) (few : fewer ≤ levels) :
    Spells hooks kind resolver fewer branches calls := by
  induction spells generalizing fewer with
  | done => exact .done
  | deferred kept _ ih =>
      obtain rfl := Nat.le_zero.mp few
      exact .deferred kept (ih le_rfl)
  | opened kept level _ _ insideIh othersIh =>
      exact .opened kept level (insideIh (Nat.sub_le_sub_right few 1)) (othersIh few)

/-- A plan follows the plain recursion at least one level deep. -/
theorem Planned.spells {active : List TypeId} {branches : List Branch} {calls : List PlannedCall}
    (planned : Planned hooks kind resolver active branches calls) {levels : Nat}
    (few : levels ≤ 1) (outermost : levels = 1 → active = []) :
    Spells hooks kind resolver levels branches calls := by
  induction planned generalizing levels with
  | done => exact .done
  | again kept recurs isOpen _ ih =>
      obtain rfl : levels = 0 := by
        by_contra positive
        rw [outermost (by omega)] at isOpen
        cases isOpen
      exact .deferred kept (ih few outermost)
  | opened kept level new _ _ insideIh othersIh =>
      exact .opened kept level (insideIh (by omega) (by omega)) (othersIh few outermost)

/-- The calls for one value. -/
theorem Spells.lists_single {levels : Nat} {id : TypeId} {place : String} {calls : List PlannedCall}
    (spells : Spells hooks kind resolver (levels + 1) [{ type := id, place := place }] calls) :
    ∃ marked, marked.map Prod.snd = calls ∧
      Lists PlannedCall.isHook (StandsAt hooks kind resolver id place) (levels + 1) marked := by
  cases spells with
  | opened kept level insides others =>
      cases others
      obtain ⟨marked, rfl, lists⟩ := insides.lists
      have outside : Branch.loops { type := id, place := place } = [] := rfl
      refine ⟨_, ?_, lists_opened level lists⟩
      simp [outside, Function.comp_def]

theorem Spells.kept {levels : Nat} {branches : List Branch} {calls : List PlannedCall}
    (spells : Spells hooks kind resolver levels branches calls) :
    ∀ branch ∈ branches, (resolver.operations.lookup (branch.type, kind)).isSome = true := by
  induction spells with
  | done => simp
  | deferred kept _ ih => exact List.forall_mem_cons.mpr ⟨kept, ih⟩
  | opened kept _ _ _ _ ih => exact List.forall_mem_cons.mpr ⟨kept, ih⟩

/-- The lifted operations that are left are those of types of the set. -/
theorem Spells.within {levels : Nat} {branches : List Branch} {calls : List PlannedCall} {trees : Set TypeTree}
    (spells : Spells hooks kind resolver levels branches calls) (prepared : resolver.Prepared hooks trees [])
    (within : ∀ branch ∈ branches, resolver.table.Within trees branch.type) :
    ∀ call ∈ calls, ∀ place type kind, call.node = .lifted place type kind →
      resolver.table.Within trees type := by
  induction spells with
  | done => simp
  | @deferred branch rest calls kept _ ih =>
      obtain ⟨first, others⟩ := List.forall_mem_cons.mp within
      refine List.forall_mem_cons.mpr ⟨fun place type kind isLifted => ?_, ih others⟩
      cases isLifted
      exact first
  | @opened levels branch rest inner hookCalls innerCalls calls kept level insides _ insideIh othersIh =>
      obtain ⟨first, others⟩ := List.forall_mem_cons.mp within
      have below : ∀ part ∈ inner, resolver.table.Within trees part.type := by
        intro part member
        obtain ⟨outcome, isKept⟩ := Option.isSome_iff_exists.mp (insides.kept part member)
        have atBranch : resolver.Prepared hooks trees [branch.type] :=
          prepared.with_types (List.forall_mem_singleton.mpr first)
        exact level.within atBranch member (prepared.ready.has isKept)
      intro call member place type kind isLifted
      cases List.mem_append.mp member with
      | inl own =>
          obtain ⟨call, isOwn, rfl⟩ := List.mem_map.mp own
          cases List.mem_append.mp isOwn with
          | inl isHook =>
              obtain ⟨hook, _, rfl⟩ := List.mem_map.mp isHook
              cases isLifted
          | inr isInner => exact insideIh below call isInner place type kind isLifted
      | inr behind => exact othersIh others call behind place type kind isLifted

end Spelling
end Resolver
end LifecycleHooks

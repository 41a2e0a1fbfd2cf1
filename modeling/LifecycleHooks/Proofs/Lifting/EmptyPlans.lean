import LifecycleHooks.Proofs.Lifting.PlannedCalls
import LifecycleHooks.Proofs.Lifting.EffectiveOperation
import LifecycleHooks.Scope.Exit

/-!
# Empty plans

An operation may be lifted and still call nothing: the hook may belong to the elements of an
array that has none.  A plan is empty exactly when the operation is vacant, that is built in,
or lifted with nowhere to go on to but other vacant types.  A recursion is never vacant: its
plan calls the lifted operation.  Apart from arrays without elements only the built-in
operation has an empty plan.
-/

namespace LifecycleHooks

/-- Whether a step leads to no value: one to the elements of an array that has none. -/
def Slot.isEmpty (slot : Slot) : Bool :=
  match slot.step with
  | .element (some count) => count ≤ 0
  | _ => false

/-- A step that is not empty leads to some value. -/
theorem Slot.exists_branch {slot : Slot} (leads : slot.isEmpty = false) (table : TypeTable) (place : String) :
    ∃ branch ∈ slot.branches table place, branch.type = slot.type := by
  obtain ⟨branch, member⟩ : ∃ branch, branch ∈ slot.branches table place := by
    unfold Slot.branches
    unfold Slot.isEmpty at leads
    split at leads
    · rename_i count isStep
      rw [isStep]
      have positive : 0 < count.toNat := by simp at leads; omega
      exact ⟨_, List.mem_map.mpr ⟨0, List.mem_range.mpr positive, rfl⟩⟩
    · rename_i others
      split
      · rename_i count isStep
        exact absurd isStep (others count)
      all_goals exact ⟨_, List.mem_singleton_self _⟩
  exact ⟨branch, member, Slot.type_of_mem_branches member⟩

theorem Slot.isEmpty_of_mem_branches {slot : Slot} {table : TypeTable} {place : String} {branch : Branch}
    (member : branch ∈ slot.branches table place) : slot.isEmpty = false := by
  unfold Slot.isEmpty
  split
  · rename_i count isStep
    unfold Slot.branches at member
    rw [isStep] at member
    obtain ⟨index, inRange, -⟩ := List.mem_map.mp member
    have below := List.mem_range.mp inRange
    simp only [decide_eq_false_iff_not]
    omega
  · rfl

namespace Resolver

open Attempt ResolveM

section Vacancy

variable (hooks : Registry) (kind : OpKind) (resolver : Resolver)

/-- A lifted operation takes a step. -/
def LiftsTo (id : TypeId) (slot : Slot) : Prop :=
  ∃ steps, resolver.Operates hooks id kind (.lifted steps) ∧ slot ∈ steps

/-- An operation on a type goes on to values of another one. -/
def CarriesOn (id part : TypeId) : Prop :=
  ∃ slot, LiftsTo hooks kind resolver id slot ∧ slot.isEmpty = false ∧ slot.type = part

/-- An operation that is built in, or lifted with every step empty or leading to a type with
such an operation. -/
inductive Vacant : TypeId → Prop where
  | builtIn {id : TypeId} (operates : resolver.Operates hooks id kind .builtIn) : Vacant id
  | lifted {id : TypeId} {steps : List Slot} (operates : resolver.Operates hooks id kind (.lifted steps))
      (each : ∀ slot ∈ steps, slot.isEmpty = false → Vacant slot.type) : Vacant id

end Vacancy

section Recursion

variable {hooks : Registry} {kind : OpKind} {resolver : Resolver} {id part : TypeId}

theorem Vacant.of_goesOn (vacant : Vacant hooks kind resolver id) (onwards : CarriesOn hooks kind resolver id part) :
    Vacant hooks kind resolver part := by
  obtain ⟨slot, ⟨steps, operates, member⟩, leads, rfl⟩ := onwards
  cases vacant with
  | builtIn isBuiltIn => cases isBuiltIn.unique operates
  | lifted otherwise each =>
      obtain rfl := Outcome.lifted.inj (otherwise.unique operates)
      exact each slot member leads

/-- A vacant operation does not come back to a type. -/
theorem Vacant.acyclic (vacant : Vacant hooks kind resolver id) (onwards : CarriesOn hooks kind resolver id part) :
    ¬ Relation.ReflTransGen (CarriesOn hooks kind resolver) part id := by
  induction vacant generalizing part with
  | builtIn isBuiltIn =>
      obtain ⟨slot, ⟨steps, operates, -⟩, -⟩ := onwards
      cases isBuiltIn.unique operates
  | @lifted id steps otherwise each ih =>
      intro back
      have first := onwards
      obtain ⟨slot, ⟨steps, operates, member⟩, leads, rfl⟩ := onwards
      obtain rfl := Outcome.lifted.inj (otherwise.unique operates)
      -- The way around, entered one step later, comes back to where that step leads.
      rcases Relation.ReflTransGen.cases_head back with same | ⟨next, second, rest⟩
      · have loops : CarriesOn hooks kind resolver slot.type slot.type := by
          nth_rewrite 1 [same]
          exact first
        exact ih slot member leads loops .refl
      · exact ih slot member leads second (rest.tail first)

theorem Vacant.not_overridden {entry : HookEntry} (vacant : Vacant hooks kind resolver id) :
    ¬ resolver.Operates hooks id kind (.overridden entry) := by
  intro operates
  cases vacant with
  | builtIn otherwise => cases otherwise.unique operates
  | lifted otherwise => cases otherwise.unique operates

/-- An empty plan is one for vacant operations only. -/
theorem Planned.vacant {active : List TypeId} {branches : List Branch}
    (planned : Planned hooks kind resolver active branches []) :
    ∀ branch ∈ branches, Vacant hooks kind resolver branch.type := by
  generalize isEmpty : ([] : List PlannedCall) = calls at planned
  induction planned with
  | done => simp
  | again => cases isEmpty
  | @opened active branch rest inner hookCalls innerCalls calls kept level new insides others insideIh othersIh =>
      obtain ⟨own, behind⟩ := List.append_eq_nil_iff.mp isEmpty.symm
      obtain ⟨noHooks, noInner⟩ := List.append_eq_nil_iff.mp (List.map_eq_nil_iff.mp own)
      have inside := insideIh noInner.symm
      refine List.forall_mem_cons.mpr ⟨?_, othersIh behind.symm⟩
      cases level with
      | builtIn operates => exact .builtIn operates
      | overridden operates after => cases noHooks
      | lifted operates =>
          refine .lifted operates fun slot member leads => ?_
          obtain ⟨below, isBranch, same⟩ := Slot.exists_branch leads resolver.table branch.place
          rw [← same]
          exact inside below (List.mem_flatMap.mpr ⟨slot, member, isBranch⟩)

/-- The plan for vacant operations that go on to no open type is empty. -/
theorem Planned.eq_nil {active : List TypeId} {branches : List Branch} {calls : List PlannedCall}
    (planned : Planned hooks kind resolver active branches calls)
    (vacant : ∀ branch ∈ branches, Vacant hooks kind resolver branch.type)
    (apart : ∀ branch ∈ branches, ∀ isOpen ∈ active,
      ¬ Relation.ReflTransGen (CarriesOn hooks kind resolver) branch.type isOpen) : calls = [] := by
  induction planned with
  | done => rfl
  | again kept recurs isOpen => exact absurd .refl (apart _ List.mem_cons_self _ isOpen)
  | @opened active branch rest inner hookCalls innerCalls calls kept level new insides others insideIh othersIh =>
      obtain ⟨here, behind⟩ := List.forall_mem_cons.mp vacant
      obtain ⟨hereApart, behindApart⟩ := List.forall_mem_cons.mp apart
      rw [othersIh behind behindApart, List.append_nil, List.map_eq_nil_iff]
      have noHook : hookCalls = [] := by
        cases level with
        | overridden operates => exact absurd operates here.not_overridden
        | _ => rfl
      have onwards : ∀ below ∈ inner, CarriesOn hooks kind resolver branch.type below.type := by
        intro below member
        cases level with
        | builtIn => cases member
        | overridden => cases noHook
        | lifted operates =>
            obtain ⟨slot, isStep, isBranch⟩ := List.mem_flatMap.mp member
            exact ⟨slot, ⟨_, operates, isStep⟩, Slot.isEmpty_of_mem_branches isBranch,
              (Slot.type_of_mem_branches isBranch).symm⟩
      rw [noHook, List.map_nil, List.nil_append]
      refine insideIh (fun below member => here.of_goesOn (onwards below member)) ?_
      intro below member isOpen isActive back
      have first := onwards below member
      rcases List.mem_cons.mp isActive with rfl | outer
      · exact here.acyclic first back
      · exact hereApart isOpen outer (.head first back)

end Recursion

section Lifting

variable {hooks : Registry} {kind : OpKind} {resolver final : Resolver} {id : TypeId}

/-- A path to a hook tells that an operation is not built in. -/
theorem HookPath.not_builtIn (ready : resolver.Ready hooks) (path : HookPath hooks kind resolver resolver.Clear id) :
    ¬ resolver.Operates hooks id kind .builtIn := by
  rintro ⟨fuel, operation, final, run, isBuiltIn⟩
  have extends_ := (resolve_extends hooks fuel id kind).of_ok run
  obtain ⟨finalReady, -, -, explained⟩ := resolve_explained ready run
  have reaches := path.extends_ extends_ fun _ clear => (clear.extends_ ready.idle extends_).resolvable
  have notBuiltIn := (explained.reachesHook_iff finalReady).mp reaches
  rw [isBuiltIn] at notBuiltIn
  cases notBuiltIn

/-- A lifted operation takes a step to a type whose operation is not built in. -/
theorem exists_step {steps : List Slot} (ready : resolver.Ready hooks)
    (kept : resolver.operations.lookup (id, kind) = some (.lifted steps)) :
    ∃ slot ∈ steps, ¬ resolver.Operates hooks slot.type kind .builtIn := by
  have explained := ready.explained id kind _ kept
  generalize isLifted : Outcome.lifted steps = outcome at explained
  cases explained with
  | builtIn => cases isLifted
  | overridden => cases isLifted
  | @lifted slots takesPart clear unbound parts path chosen leftOut =>
      obtain rfl := Outcome.lifted.inj isLifted
      cases path with
      | overridden isClear hook =>
          cases (TypeTable.governingHook?_eq_ok_some.mpr hook).symm.trans unbound
      | @constituent _ others slot isClear same member path =>
          obtain ⟨rfl, -⟩ := EStateM.Result.ok.inj (parts.symm.trans same)
          have takes : takesPart slot = true := by
            by_contra leaves
            have unhooked := leftOut slot member (by simpa using leaves)
            exact unhooked.no_path ready.idle (.refl resolver)
              (path.extends_ (.refl resolver) fun _ clear => clear.resolvable)
          exact ⟨slot, mem_orderSteps.mpr (List.mem_filter.mpr ⟨member, takes⟩), path.not_builtIn ready⟩

/-- Where no step is empty, an empty plan is one for built-in operations only. -/
theorem Planned.builtIn {active : List TypeId} {branches : List Branch} (frozen : hooks.frozen = true)
    (ready : resolver.Ready hooks) (planned : Planned hooks kind resolver active branches [])
    (noneEmpty : ∀ branch ∈ branches, ∀ owner, Relation.ReflTransGen (CarriesOn hooks kind resolver) branch.type owner →
      ∀ slot, LiftsTo hooks kind resolver owner slot → slot.isEmpty = false) :
    ∀ branch ∈ branches, resolver.Operates hooks branch.type kind .builtIn := by
  generalize isEmpty : ([] : List PlannedCall) = calls at planned
  induction planned with
  | done => simp
  | again => cases isEmpty
  | @opened active branch rest inner hookCalls innerCalls calls kept level new insides others insideIh othersIh =>
      obtain ⟨own, behind⟩ := List.append_eq_nil_iff.mp isEmpty.symm
      obtain ⟨noHooks, noInner⟩ := List.append_eq_nil_iff.mp (List.map_eq_nil_iff.mp own)
      obtain ⟨here, others⟩ := List.forall_mem_cons.mp noneEmpty
      refine List.forall_mem_cons.mpr ⟨?_, othersIh others behind.symm⟩
      cases level with
      | builtIn operates => exact operates
      | overridden operates after => cases noHooks
      | @lifted steps operates =>
          obtain ⟨outcome, known⟩ := Option.isSome_iff_exists.mp kept
          obtain rfl := operates.unique (operates_of_kept frozen known)
          obtain ⟨slot, member, notBuiltIn⟩ := exists_step ready known
          have leads := here branch.type .refl slot ⟨steps, operates, member⟩
          obtain ⟨below, isBranch, same⟩ := Slot.exists_branch leads resolver.table branch.place
          refine absurd (insideIh ?_ noInner.symm below (List.mem_flatMap.mpr ⟨slot, member, isBranch⟩))
            (same ▸ notBuiltIn)
          intro other inside owner leads
          obtain ⟨step, isStep, isOther⟩ := List.mem_flatMap.mp inside
          exact here owner (.head ⟨step, ⟨steps, operates, isStep⟩, Slot.isEmpty_of_mem_branches isOther,
            (Slot.type_of_mem_branches isOther).symm⟩ leads)

section Planning

variable {fuel : Nat} {active : List TypeId} {place : String}

/-- Every part of a plan makes calls. -/
def Calls (nodes : List CallNode) : Prop :=
  ∀ node ∈ nodes, node.plannedCalls ≠ []

theorem Calls.eq_nil_iff {nodes : List CallNode} (calls : Calls nodes) : nodes = [] ↔ plannedCalls nodes = [] := by
  cases nodes with
  | nil => simp
  | cons node nodes => simp [calls node List.mem_cons_self]

theorem Calls.wrap {body : List CallNode} (calls : Calls body) (branch : Branch) : Calls (branch.wrap body) := by
  unfold Branch.wrap
  cases branch.sequence? with
  | none => exact calls
  | some sequence =>
      intro node member
      dsimp only at member
      split at member
      · cases member
      · rename_i notEmpty
        obtain rfl := List.mem_singleton.mp member
        rw [CallNode.plannedCalls_elements, Ne, List.map_eq_nil_iff, ← calls.eq_nil_iff]
        simpa using notEmpty

/-- A plan has no part that calls nothing. -/
theorem Plans.calls {branches : List Branch} {nodes : List CallNode}
    (plans : Plans hooks kind resolver active branches nodes) : Calls nodes := by
  induction plans with
  | done => simp [Calls]
  | @again active branch rest nodes kept recurs isOpen _ ih =>
      have calls : Calls [.lifted branch.place branch.type kind] := List.forall_mem_singleton.mpr (by simp)
      exact List.forall_mem_append.mpr ⟨calls.wrap branch, ih⟩
  | @opened active branch rest inner hookCalls innerNodes nodes kept level new _ _ insideIh ih =>
      have calls : Calls (hookCalls.map .hook ++ innerNodes) :=
        List.forall_mem_append.mpr ⟨List.forall_mem_map.mpr (by simp), insideIh⟩
      exact List.forall_mem_append.mpr ⟨calls.wrap branch, ih⟩

/-- The operation that a plan is made for is the one answered before and after. -/
theorem operates_of_expandWithin {nodes : List CallNode}
    (run : expandWithin hooks kind fuel active id place resolver = .ok nodes final) :
    ∃ outcome, resolver.Operates hooks id kind outcome ∧ final.Operates hooks id kind outcome := by
  cases fuel with
  | zero => cases run
  | succ fuel =>
      have opened := run
      rw [expandWithin_succ] at opened
      obtain ⟨operation, middle, resolved, rest⟩ := bind_eq_ok.mp opened
      refine ⟨operation.outcome, ⟨fuel, operation, middle, resolved, rfl⟩, ?_⟩
      -- Asked again, the plan goes on from where the operation was found.
      have again : resolve hooks fuel id kind middle = .ok operation middle := by
        obtain ⟨kept, same⟩ := resolve_kept resolved
        unfold resolve at resolved ⊢
        split at resolved
        · cases resolved
        · rename_i frozen
          rw [if_neg frozen, known?_bind_run, kept, same]
          rfl
      have onwards : expandWithin hooks kind (fuel + 1) active id place middle = .ok nodes final := by
        rw [expandWithin_succ, bind_run_of_ok again]
        exact rest
      exact (operates_of_run resolved ((expandWithin_extends _ _ _ _).of_ok onwards)).2

end Planning

end Lifting

section Settling

variable {hooks : Registry} {resolver : Resolver} {trees : Set TypeTree} {id : TypeId}

/-- The types that an operation goes on to have no steps to arrays without elements. -/
def NoneEmpty (hooks : Registry) (kind : OpKind) (resolver : Resolver) (id : TypeId) : Prop :=
  ∀ owner, Relation.ReflTransGen (CarriesOn hooks kind resolver) id owner →
    ∀ slot, LiftsTo hooks kind resolver owner slot → slot.isEmpty = false

theorem expand_settles_vacant (frozen : hooks.frozen = true) (finite : trees.Finite)
    (prepared : resolver.Prepared hooks trees [id]) (kind : OpKind) (place : String) :
    Settles (fun plan final => (plan = [] ↔ Vacant hooks kind final id) ∧
        (resolver.Operates hooks id kind .builtIn → plan = []) ∧
        (NoneEmpty hooks kind final id → (plan = [] ↔ resolver.Operates hooks id kind .builtIn)))
      (fun fuel => expand hooks fuel id kind place) resolver := by
  apply (expandWithin_settles frozen finite prepared List.nodup_nil place).mono
  intro plan final fuel run _
  have planned := expandWithin_planned run (.refl final)
  have ready := (expandWithin_leads (prepared_leadsQueries hooks trees [id]) kind fuel [] id place).of_ok run prepared
  obtain ⟨outcome, before, after⟩ := operates_of_expandWithin run
  rw [(expandWithin_plans run (.refl final)).calls.eq_nil_iff]
  have isVacant : plannedCalls plan = [] ↔ Vacant hooks kind final id := by
    constructor
    · intro isEmpty
      rw [isEmpty] at planned
      exact planned.vacant _ (List.mem_singleton_self _)
    · intro vacant
      exact planned.eq_nil (List.forall_mem_singleton.mpr vacant) (by simp)
  have ofBuiltIn (operates : resolver.Operates hooks id kind .builtIn) : plannedCalls plan = [] := by
    obtain rfl := before.unique operates
    exact isVacant.mpr (.builtIn after)
  refine ⟨isVacant, ofBuiltIn, fun noneEmpty => ⟨fun isEmpty => ?_, ofBuiltIn⟩⟩
  rw [isEmpty] at planned
  have isBuiltIn := planned.builtIn frozen ready.ready (List.forall_mem_singleton.mpr noneEmpty) _
    (List.mem_singleton_self _)
  obtain rfl := after.unique isBuiltIn
  exact before

/-- Exactly the vacant operations have an empty plan: the built-in ones, and apart from arrays
without elements no others.  A type is taken for destructible, and a local of it scheduled,
when its destruction is not built in; what is scheduled then may be empty only if it is
vacant. -/
theorem plan_eq_nil_iff (serving : Serving hooks resolver) (frozen : hooks.frozen = true)
    (has : resolver.table.Has id) (finite : (resolver.reach id).Finite) :
    (∀ kind place, Settles (fun plan final => (plan = [] ↔ Vacant hooks kind final id) ∧
        (resolver.Operates hooks id kind .builtIn → plan = []) ∧
        (NoneEmpty hooks kind final id → (plan = [] ↔ resolver.Operates hooks id kind .builtIn)))
      (fun fuel => expand hooks fuel id kind place) resolver) ∧
    Settles (fun answer _ => answer = true ↔ ¬ resolver.Operates hooks id .destroy .builtIn)
      (fun fuel => isDestructible hooks fuel id) resolver ∧
    ∀ declared : Local, declared.type = id →
      Settles (fun scheduled final => (scheduled = none ↔ resolver.Operates hooks id .destroy .builtIn) ∧
          ∀ destruction, scheduled = some destruction →
            (destruction.plan = [] ↔ Vacant hooks .destroy final id))
        (fun fuel => scheduleLocal hooks fuel declared) resolver := by
  have prepared := serving.prepared has
  have resolves : Settles (fun _ _ => True) (fun fuel => resolve hooks fuel id .destroy) resolver :=
    resolve_settles frozen finite prepared.confined (prepared.within id (by simp))
  have tells {fuel : Nat} {operation : Operation} {middle : Resolver}
      (run : resolve hooks fuel id .destroy resolver = .ok operation middle) :
      operation.isBuiltIn = true ↔ resolver.Operates hooks id .destroy .builtIn := by
    have operates : resolver.Operates hooks id .destroy operation.outcome := ⟨fuel, operation, middle, run, rfl⟩
    constructor
    · intro isBuiltIn
      cases isOutcome : operation.outcome with
      | builtIn => exact isOutcome ▸ operates
      | _ => simp [Operation.isBuiltIn, Outcome.isBuiltIn, isOutcome] at isBuiltIn
    · intro otherwise
      rw [Operation.isBuiltIn, operates.unique otherwise]
      rfl
  refine ⟨expand_settles_vacant frozen finite prepared, ?_, ?_⟩
  · apply resolves.bind
    intro operation middle fuel run _
    refine settles_pure ?_
    rw [← tells run]
    simp
  · rintro declared rfl
    apply resolves.bind
    intro operation middle fuel run _
    have between := ((prepared_leadsQueries hooks _ [declared.type]).resolves fuel declared.type .destroy).of_ok run prepared
    cases isBuiltIn : operation.isBuiltIn with
    | true => exact settles_pure ⟨by simp [← tells run, isBuiltIn], by simp⟩
    | false =>
        apply (expand_settles_vacant frozen finite between .destroy declared.name).bind
        rintro plan final _ _ ⟨isVacant, -, -⟩
        exact settles_pure ⟨by simp [← tells run, isBuiltIn], by simpa using isVacant⟩

end Settling

/-- An array of no handles beside one of two. -/
def handlesTable : TypeTable :=
  TypeTable.after {} [.object "Handle" [] {}, .array 0 1, .array 2 1]

/-- The hook that destroys a handle. -/
def handleHooks : Registry where
  entries := [{ kind := .destroy, target := 1, params := [], result := 1, impl := "close" }]
  frozen := true

theorem handlesTable_serving : Serving handleHooks { table := handlesTable } :=
  .start (TypeTable.Built.empty.after (by decide +kernel))

theorem plan_eq_nil_iff_handles :
    (reach { table := handlesTable } 3).Finite ∧
      Settles (fun plan final => plan = [] ↔ Vacant handleHooks .destroy final 3)
        (fun fuel => expand handleHooks fuel 3 .destroy "pair") { table := handlesTable } := by
  have closed : leadsToEachOther handlesTable [1, 3] = true := by decide +kernel
  have member : (3 : TypeId) ∈ [1, 3] := by decide
  have finite := finite_reach handlesTable_serving.intact member closed
  have isArray : (handlesTable.get? 3).isSome = true := by decide +kernel
  refine ⟨finite, ((plan_eq_nil_iff handlesTable_serving rfl isArray finite).1 .destroy "pair").mono ?_⟩
  exact fun plan final fuel run told => told.1

/-- The plan for an array of no elements is empty although its operation is lifted. -/
theorem not_plan_eq_nil_iff_builtIn :
    ¬ ∀ (hooks : Registry) (resolver : Resolver) (id : TypeId), Serving hooks resolver → hooks.frozen = true →
      resolver.table.Has id → (resolver.reach id).Finite → ∀ kind place,
        Settles (fun plan _ => plan = [] ↔ resolver.Operates hooks id kind .builtIn)
          (fun fuel => expand hooks fuel id kind place) resolver := by
  intro equivalent
  have closed : leadsToEachOther handlesTable [1, 2] = true := by decide +kernel
  have member : (2 : TypeId) ∈ [1, 2] := by decide
  have finite := finite_reach handlesTable_serving.intact member closed
  have isArray : (handlesTable.get? 2).isSome = true := by decide +kernel
  have settles := equivalent handleHooks _ 2 handlesTable_serving rfl isArray finite .destroy "none"
  have plans : ((expand handleHooks 9 2 .destroy "none").result? { table := handlesTable }).map List.isEmpty =
      some true := by decide +kernel
  obtain ⟨plan, planned, isEmpty⟩ := Option.map_eq_some_iff.mp plans
  have steady := expandWithin_steady handleHooks .destroy [] 2 "none"
  obtain ⟨fuel, operation, middle, run, isBuiltIn⟩ :=
    (steady.brings settles (run_of_result? planned)).mp (List.isEmpty_iff.mp isEmpty)
  have lifts : ((resolve handleHooks 9 2 .destroy).result? { table := handlesTable }).map Operation.outcome =
      some (.lifted [⟨.element (some 0), 1⟩]) := by decide +kernel
  obtain ⟨found, resolved, isLifted⟩ := Option.map_eq_some_iff.mp lifts
  have operates : Operates handleHooks { table := handlesTable } 2 .destroy (.lifted [⟨.element (some 0), 1⟩]) :=
    ⟨9, found, _, run_of_result? resolved, isLifted⟩
  cases operates.unique ⟨fuel, operation, middle, run, isBuiltIn⟩

end Resolver
end LifecycleHooks

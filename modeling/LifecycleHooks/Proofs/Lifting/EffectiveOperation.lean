import LifecycleHooks.Proofs.Lifting.Correctness

/-!
# Effective operations

The effective operation of a type is built in when the type has no finite structure.
Otherwise it is the hook that overrides it, or it is lifted when a path leads to an
overridden type; then its steps are the constituents whose own operation is not built
in, in their fixed order.  Resolving gives exactly this operation.
-/

namespace LifecycleHooks

/-- The base of a type stands before its other constituents. -/
theorem TableM.constituents_base_first {id : TypeId} {table later : TypeTable} {slots : List Slot}
    (run : constituents id table = .ok slots later) :
    ∃ base own, slots = base ++ own ∧ (∀ slot ∈ base, slot.isBase = true) ∧
      ∀ slot ∈ own, slot.isBase = false := by
  have bodySlots (body : Body) : ∃ base own, body.slots = base ++ own ∧
      (∀ slot ∈ base, slot.isBase = true) ∧ ∀ slot ∈ own, slot.isBase = false := by
    refine ⟨_, _, rfl, fun slot member => ?_, fun slot member => ?_⟩
    · obtain ⟨base, _, rfl⟩ := List.mem_map.mp member
      rfl
    · obtain ⟨field, _, rfl⟩ := List.mem_map.mp member
      rfl
  have ownSlots (own : List Slot) (notBase : ∀ slot ∈ own, slot.isBase = false) :
      ∃ base rest, own = base ++ rest ∧ (∀ slot ∈ base, slot.isBase = true) ∧
        ∀ slot ∈ rest, slot.isBase = false :=
    ⟨[], own, rfl, by simp, notBase⟩
  unfold constituents at run
  obtain ⟨type, middle, fetched, rest⟩ := Attempt.bind_eq_ok.mp run
  cases type with
  | object object =>
      obtain ⟨body, _, _, rest⟩ := Attempt.bind_eq_ok.mp rest
      obtain ⟨rfl, _⟩ := EStateM.Result.ok.inj rest
      exact bodySlots body
  | applied head args =>
      obtain ⟨body, _, _, rest⟩ := Attempt.bind_eq_ok.mp rest
      obtain ⟨rfl, _⟩ := EStateM.Result.ok.inj rest
      exact bodySlots body
  | tuple elements =>
      obtain ⟨rfl, _⟩ := EStateM.Result.ok.inj rest
      refine ownSlots _ fun slot member => ?_
      obtain ⟨⟨element, index⟩, _, rfl⟩ := List.mem_map.mp member
      rfl
  | wrap wrapper inner =>
      cases wrapper <;>
        (obtain ⟨rfl, _⟩ := EStateM.Result.ok.inj rest
         exact ownSlots _ (by simp [Slot.isBase]))
  | _ =>
      obtain ⟨rfl, _⟩ := EStateM.Result.ok.inj rest
      exact ownSlots _ (by simp [Slot.isBase])

/-- The steps of a lifted operation.  An operation starts with the base and goes on in
the order declared; destruction goes the other way round. -/
def stepsInOrder : OpKind → (base own : List Slot) → List Slot
  | .destroy, base, own => own.reverse ++ base
  | .assign, base, own | .deepCopy, base, own => base ++ own

theorem orderSteps_filter {kind : OpKind} {base own : List Slot} (takesPart : Slot → Bool)
    (isBase : ∀ slot ∈ base, slot.isBase = true) (notBase : ∀ slot ∈ own, slot.isBase = false) :
    orderSteps kind ((base ++ own).filter takesPart) =
      stepsInOrder kind (base.filter takesPart) (own.filter takesPart) := by
  have chosenBase : ∀ slot ∈ base.filter takesPart, slot.isBase = true := fun slot member =>
    isBase slot (List.mem_filter.mp member).1
  have chosenOwn : ∀ slot ∈ own.filter takesPart, slot.isBase = false := fun slot member =>
    notBase slot (List.mem_filter.mp member).1
  have bases : ((base ++ own).filter takesPart).filter Slot.isBase = base.filter takesPart := by
    have noOwn : (own.filter takesPart).filter Slot.isBase = [] :=
      List.filter_eq_nil_iff.mpr fun slot member => by simp [chosenOwn slot member]
    rw [List.filter_append, List.filter_append, noOwn, List.append_nil]
    exact List.filter_eq_self.mpr chosenBase
  have owns : ((base ++ own).filter takesPart).filter (!·.isBase) = own.filter takesPart := by
    have noBase : (base.filter takesPart).filter (!·.isBase) = [] :=
      List.filter_eq_nil_iff.mpr fun slot member => by simp [chosenBase slot member]
    rw [List.filter_append, List.filter_append, noBase, List.nil_append]
    exact List.filter_eq_self.mpr fun slot member => by simp [chosenOwn slot member]
  cases kind <;> simp only [orderSteps, bases, owns, stepsInOrder]

namespace Resolver

open Attempt ResolveM

/-- The operation on a type as the hooks and the structure of the type determine it. -/
structure IsEffective (hooks : Registry) (resolver : Resolver) (id : TypeId) (kind : OpKind)
    (outcome : Outcome) : Prop where
  settled : resolver.Resolvable id ↔ ¬ resolver.Unresolvable id
  unresolvable : resolver.Unresolvable id → outcome = .builtIn
  overridden : ∀ entry, outcome = .overridden entry ↔
    ¬ resolver.Unresolvable id ∧ resolver.table.Overridden hooks kind id entry
  lifted : (∃ steps, outcome = .lifted steps) ↔
    ¬ resolver.Unresolvable id ∧ (∀ entry, ¬ resolver.table.Overridden hooks kind id entry) ∧
      resolver.ReachesHook hooks kind id
  /-- Nothing that is asked later changes what the operation depends on. -/
  lasting : ∀ later, Reached hooks resolver later →
    (later.Unresolvable id ↔ resolver.Unresolvable id) ∧
      (later.ReachesHook hooks kind id ↔ resolver.ReachesHook hooks kind id)
  /-- A constituent takes part when its own operation is not built in. -/
  ordered : ∀ steps, outcome = .lifted steps →
    ∃ base own takesPart,
      relevantSlots id kind resolver = .ok (base ++ own) resolver ∧
      (∀ slot ∈ base, slot.isBase = true) ∧ (∀ slot ∈ own, slot.isBase = false) ∧
      steps = stepsInOrder kind (base.filter takesPart) (own.filter takesPart) ∧
      ∀ slot ∈ base ++ own, ∀ later, Reached hooks resolver later →
        ∀ fuel operation final, resolve hooks fuel slot.type kind later = .ok operation final →
          (takesPart slot = true ↔ operation.isBuiltIn = false)

section Explanation

variable {hooks : Registry} {kind : OpKind} {resolver : Resolver} {id : TypeId} {outcome : Outcome}

theorem relevantSlots_base_first {slots : List Slot} {final : Resolver}
    (parts : relevantSlots id kind resolver = .ok slots final) :
    ∃ base own, slots = base ++ own ∧ (∀ slot ∈ base, slot.isBase = true) ∧
      ∀ slot ∈ own, slot.isBase = false := by
  unfold relevantSlots at parts
  obtain ⟨type, middle, _, rest⟩ := bind_eq_ok.mp parts
  split at rest
  · obtain ⟨table, asked, _⟩ := onTable_eq_ok.mp rest
    exact TableM.constituents_base_first asked
  · obtain ⟨rfl, _⟩ := EStateM.Result.ok.inj rest
    exact ⟨[], [], by simp⟩

theorem Reached.staysReady {later : Resolver} (reached : Reached hooks resolver later) :
    StaysReady hooks resolver later :=
  reached.preserves (fun _ _ consults ready => ready.consults consults) resolve_ready

/-- Every explanation settles whether the type has a finite structure. -/
theorem Explained.held_or_clear (explained : Explained hooks kind resolver id outcome) :
    resolver.Held id ∧ outcome = .builtIn ∨ resolver.Clear id := by
  cases explained with
  | builtIn unhooked =>
      obtain ⟨region, member, barren⟩ := unhooked
      cases barren id member with
      | held held => exact .inl ⟨held, rfl⟩
      | clear clear unbound parts inside => exact .inr clear
  | overridden clear hook => exact .inr clear
  | lifted clear unbound parts path => exact .inr clear

theorem Explained.reachesHook_iff (ready : resolver.Ready hooks)
    (explained : Explained hooks kind resolver id outcome) :
    resolver.ReachesHook hooks kind id ↔ outcome.isBuiltIn = false := by
  constructor
  · intro path
    by_contra notBuiltIn
    exact (explained.unhooked (by simpa using notBuiltIn)).no_path ready.idle (.refl resolver) path
  · intro notBuiltIn
    exact (explained.hookPath notBuiltIn).extends_ (.refl resolver) fun _ clear => clear.resolvable

/-- A constituent takes part in a lifted operation exactly when its own operation is
not built in, whenever that is resolved. -/
theorem Explained.takesPart_iff {takes : Bool} (ready : resolver.Ready hooks)
    (chosen : takes = true → HookPath hooks kind resolver resolver.Clear id)
    (leftOut : takes = false → resolver.Unhooked hooks kind id) {later final : Resolver}
    (reached : Reached hooks resolver later) {fuel : Nat} {operation : Operation}
    (run : resolve hooks fuel id kind later = .ok operation final) :
    takes = true ↔ operation.isBuiltIn = false := by
  obtain ⟨finalReady, _, _, explained⟩ := resolve_explained (reached.staysReady ready) run
  have extends_ := reached.extends_.trans ((resolve_extends hooks fuel id kind).of_ok run)
  rw [Operation.isBuiltIn, ← explained.reachesHook_iff finalReady]
  cases takes with
  | true =>
      have path := (chosen rfl).extends_ extends_ fun _ clear =>
        (clear.extends_ ready.idle extends_).resolvable
      simp only [true_iff]
      exact path
  | false =>
      simp only [Bool.false_eq_true, false_iff]
      exact (leftOut rfl).no_path ready.idle extends_

/-- An operation that is explained is the effective one. -/
theorem Explained.isEffective (ready : resolver.Ready hooks)
    (explained : Explained hooks kind resolver id outcome) :
    IsEffective hooks resolver id kind outcome where
  settled := by
    rcases explained.held_or_clear with ⟨held, _⟩ | clear
    · simp [held.unresolvable, held.not_resolvable]
    · simp [clear.resolvable, clear.not_unresolvable]
  unresolvable isUnresolvable := by
    rcases explained.held_or_clear with ⟨_, builtIn⟩ | clear
    · exact builtIn
    · exact absurd isUnresolvable clear.not_unresolvable
  overridden entry := by
    constructor
    · rintro rfl
      cases explained with
      | overridden clear hook => exact ⟨clear.not_unresolvable, hook⟩
    · rintro ⟨resolvable, hook⟩
      have governs := TypeTable.governingHook?_eq_ok_some.mpr hook
      cases explained with
      | builtIn unhooked =>
          obtain ⟨region, member, barren⟩ := unhooked
          cases barren id member with
          | held held => exact absurd held.unresolvable resolvable
          | clear clear unbound parts inside => cases governs.symm.trans unbound
      | overridden clear other =>
          cases governs.symm.trans (TypeTable.governingHook?_eq_ok_some.mpr other)
          rfl
      | lifted clear unbound parts path => cases governs.symm.trans unbound
  lifted := by
    constructor
    · rintro ⟨steps, rfl⟩
      refine ⟨?_, fun entry hook => ?_, (explained.reachesHook_iff ready).mpr rfl⟩
      · rcases explained.held_or_clear with ⟨_, notLifted⟩ | clear
        · cases notLifted
        · exact clear.not_unresolvable
      · cases explained with
        | lifted clear unbound parts path =>
            cases (TypeTable.governingHook?_eq_ok_some.mpr hook).symm.trans unbound
    · rintro ⟨resolvable, unbound, path⟩
      have notBuiltIn := (explained.reachesHook_iff ready).mp path
      cases outcome with
      | builtIn => cases notBuiltIn
      | overridden entry =>
          cases explained with
          | overridden clear hook => exact absurd hook (unbound entry)
      | lifted steps => exact ⟨steps, rfl⟩
  lasting later reached := by
    have extends_ := reached.extends_
    have laterReady := reached.staysReady ready
    have laterExplained := explained.extends_ ready.idle extends_
    refine ⟨?_, ?_⟩
    · rcases explained.held_or_clear with ⟨held, _⟩ | clear
      · simp [held.unresolvable, (held.extends_ ready.idle extends_).unresolvable]
      · simp [clear.not_unresolvable, (clear.extends_ ready.idle extends_).not_unresolvable]
    · rw [explained.reachesHook_iff ready, laterExplained.reachesHook_iff laterReady]
  ordered steps isLifted := by
    subst isLifted
    cases explained with
    | lifted clear unbound parts path chosen leftOut =>
        rename_i slots takesPart
        obtain ⟨base, own, rfl, isBase, notBase⟩ := relevantSlots_base_first parts
        exact ⟨base, own, takesPart, parts, isBase, notBase,
          orderSteps_filter takesPart isBase notBase,
          fun slot member later reached fuel operation final run =>
            Explained.takesPart_iff ready (chosen slot member) (leftOut slot member) reached run⟩

end Explanation

/-- Resolving gives the effective operation of a type, whatever was asked before and
whether or not it was answered. -/
theorem resolve_isEffective {hooks : Registry} {table : TypeTable} {resolver final : Resolver}
    {fuel : Nat} {id : TypeId} {kind : OpKind} {operation : Operation}
    (reached : Reached hooks { table := table } resolver)
    (run : resolve hooks fuel id kind resolver = .ok operation final) :
    operation.type = id ∧ operation.kind = kind ∧
      IsEffective hooks final id kind operation.outcome := by
  obtain ⟨ready, sameType, sameKind, explained⟩ := resolve_explained reached.ready run
  exact ⟨sameType, sameKind, explained.isEffective ready⟩

/-- A shelf of items, whose destruction is hooked, with a spare one. -/
def shelfTable : TypeTable where
  cells := #[
    { type := .object { name := "Item", params := [], body := {}, span := {} } },
    { type := .wrap .seq 1 },
    { type := .object
        { name := "Shelf", params := [], span := {}
          body := { fields := [⟨"items", 2⟩, ⟨"spare", 1⟩] } } }]

/-- The hook that destroys an item. -/
def itemHooks : Registry where
  entries := [{ kind := .destroy, target := 1, params := [], result := 1, impl := "drop" }]
  frozen := true

theorem resolve_isEffective_shelf :
    ∃ resolver operation final,
      Reached itemHooks { table := shelfTable } resolver ∧
      resolve itemHooks 9 3 .destroy resolver = .ok operation final ∧
      operation.outcome = .lifted [⟨.field "spare", 1⟩, ⟨.field "items", 2⟩] ∧
      IsEffective itemHooks final 3 .destroy operation.outcome := by
  have reached : Reached itemHooks { table := shelfTable } _ :=
    .asked .start 9 (.resolve 2 .assign)
  have run : resolve itemHooks 9 3 .destroy
      ((Query.ask itemHooks 9 (.resolve 2 .assign)).finish { table := shelfTable }) = .ok _ _ := rfl
  exact ⟨_, _, _, reached, run, rfl, (resolve_isEffective reached run).2.2⟩

end Resolver
end LifecycleHooks

import LifecycleHooks.Proofs.Lifting.Verdict

/-!
# Paths to hooks

A hook takes part in an operation on a type when a finite path leads from the type
to an overridden one, through constituents that take part and through types with a
finite structure.  The opposite is witnessed by a region of types that no path
leaves and that holds no overridden type.
-/

namespace LifecycleHooks

namespace TypeTable

/-- The hook for an operation on a nominal type: its own, or that of its generic
object. -/
inductive NominalHook (table : TypeTable) (hooks : Registry) (kind : OpKind) (id : TypeId) :
    HookEntry → Prop where
  | own {type : TypeDef} {entry : HookEntry} (isType : table.get? id = some type)
      (nominal : type.isNominal = true) (bound : hooks.lookup id kind = some entry) :
      NominalHook table hooks kind id entry
  | generic {head : TypeId} {args : List TypeId} {entry : HookEntry}
      (isType : table.get? id = some (.applied head args)) (unbound : hooks.lookup id kind = none)
      (bound : hooks.lookup head kind = some entry) : NominalHook table hooks kind id entry

/-- The hook that overrides an operation on a type.  A deep copy of a reference or a
pointer is overridden by a hook for what it points to, made for the same indirection. -/
inductive Overridden (table : TypeTable) (hooks : Registry) (kind : OpKind) (id : TypeId)
    (entry : HookEntry) : Prop where
  | value (isValue : kind ≠ .deepCopy) (hook : table.NominalHook hooks kind id entry)
  | copied {wrapper : Wrapper} {inner : TypeId} (isCopy : kind = .deepCopy)
      (isType : table.get? id = some (.wrap wrapper inner))
      (indirect : wrapper.indirection?.isSome = true)
      (hook : table.NominalHook hooks kind inner entry)
      (same : entry.indirection = wrapper.indirection?)

theorem nominalHook?_eq_ok_some {table : TypeTable} {hooks : Registry} {id : TypeId} {kind : OpKind}
    {entry : HookEntry} :
    table.nominalHook? hooks id kind = .ok (some entry) ↔
      table.NominalHook hooks kind id entry := by
  constructor
  · intro found
    unfold nominalHook? isNominal at found
    cases isType : table.get id with
    | error fault => simp [isType, bind, Except.bind] at found
    | ok type =>
        have atType := get_eq_ok.mp isType
        cases bound : hooks.lookup id kind with
        | some own =>
            cases nominal : type.isNominal with
            | false => simp [isType, nominal, bind, Except.bind, pure, Except.pure] at found
            | true =>
                simp [isType, nominal, bound, bind, Except.bind, pure, Except.pure] at found
                exact found ▸ .own atType nominal bound
        | none =>
            cases type <;>
              simp [isType, TypeDef.isNominal, bound, head?, bind, Except.bind, pure, Except.pure]
                at found
            exact .generic atType bound found
  · intro hook
    unfold nominalHook? isNominal
    cases hook with
    | own isType nominal bound =>
        simp [get_eq_ok.mpr isType, nominal, bound, bind, Except.bind, pure, Except.pure]
    | generic isType unbound bound =>
        simp [get_eq_ok.mpr isType, TypeDef.isNominal, head?, unbound, bound, bind, Except.bind,
          pure, Except.pure]

/-- The hook for a deep copy through an indirection. -/
private theorem copyHook_eq_ok_some {table : TypeTable} {hooks : Registry} {inner : TypeId}
    {indirection : Indirection} {entry : HookEntry} :
    (do let found ← table.nominalHook? hooks inner .deepCopy
        return found.filter (·.indirection = some indirection) : Except Fault (Option HookEntry)) =
        .ok (some entry) ↔
      table.NominalHook hooks .deepCopy inner entry ∧ entry.indirection = some indirection := by
  rw [← nominalHook?_eq_ok_some]
  cases table.nominalHook? hooks inner .deepCopy with
  | error fault => simp [bind, Except.bind]
  | ok found =>
      simp only [bind, Except.bind, pure, Except.pure, Except.ok.injEq, Option.filter_eq_some_iff,
        decide_eq_true_eq]

theorem governingHook?_eq_ok_some {table : TypeTable} {hooks : Registry} {id : TypeId}
    {kind : OpKind} {entry : HookEntry} :
    table.governingHook? hooks id kind = .ok (some entry) ↔
      table.Overridden hooks kind id entry := by
  unfold governingHook?
  constructor
  · intro found
    cases isType : table.get id with
    | error fault => simp [isType, bind, Except.bind] at found
    | ok type =>
        have atType := get_eq_ok.mp isType
        rw [isType] at found
        cases kind with
        | deepCopy =>
            cases type with
            | wrap wrapper inner =>
                cases wrapper with
                | ref =>
                    obtain ⟨hook, same⟩ := copyHook_eq_ok_some.mp found
                    exact .copied rfl atType rfl hook same
                | ptr =>
                    obtain ⟨hook, same⟩ := copyHook_eq_ok_some.mp found
                    exact .copied rfl atType rfl hook same
                | _ => cases found
            | _ => cases found
        | _ =>
            cases type with
            | wrap wrapper inner =>
                cases wrapper with
                | ref => cases found
                | ptr => cases found
                | _ => exact .value (by simp) (nominalHook?_eq_ok_some.mp found)
            | _ => exact .value (by simp) (nominalHook?_eq_ok_some.mp found)
  · intro hook
    cases hook with
    | value isValue hook =>
        have found := nominalHook?_eq_ok_some.mpr hook
        obtain ⟨type, isType, nominal⟩ : ∃ type, table.get? id = some type ∧
            type.isNominal = true := by
          cases hook with
          | own isType nominal _ => exact ⟨_, isType, nominal⟩
          | generic isType => exact ⟨_, isType, rfl⟩
        rw [get_eq_ok.mpr isType]
        have noIndirection : type.indirection? = none := by
          cases type <;> first | rfl | cases nominal
        cases kind with
        | deepCopy => exact absurd rfl isValue
        | assign => simpa [noIndirection, bind, Except.bind] using found
        | destroy => simpa [noIndirection, bind, Except.bind] using found
    | copied isCopy isType indirect hook same =>
        subst isCopy
        rw [get_eq_ok.mpr isType]
        rename_i wrapper inner
        cases wrapper with
        | ref => exact copyHook_eq_ok_some.mpr ⟨hook, same⟩
        | ptr => exact copyHook_eq_ok_some.mpr ⟨hook, same⟩
        | _ => cases indirect

theorem stable_nominalHook? (hooks : Registry) (id : TypeId) (kind : OpKind) :
    IsStable (·.nominalHook? hooks id kind) := by
  refine (stable_isNominal id).bind fun nominal => ?_
  split
  · exact stable_pure _
  · cases hooks.lookup id kind with
    | some entry => exact stable_pure _
    | none =>
        refine (stable_head? id).bind fun head => ?_
        cases head <;> exact stable_pure _

theorem stable_governingHook? (hooks : Registry) (id : TypeId) (kind : OpKind) :
    IsStable (·.governingHook? hooks id kind) := by
  refine (stable_get id).bind fun type => ?_
  split
  · exact (stable_nominalHook? hooks _ .deepCopy).bind fun _ => stable_pure _
  · exact stable_pure _
  · exact stable_pure _
  · exact stable_nominalHook? hooks id _

end TypeTable

namespace Resolver

open Attempt ResolveM

/-- Asked whether a type has no finite structure, the resolver says that it has none. -/
def Unresolvable (resolver : Resolver) (id : TypeId) : Prop :=
  ∃ fuel final, isUnresolvable fuel id resolver = .ok true final

/-- Asked whether a type has no finite structure, the resolver says that it has one. -/
def Resolvable (resolver : Resolver) (id : TypeId) : Prop :=
  ∃ fuel final, isUnresolvable fuel id resolver = .ok false final

theorem Held.answer {resolver final : Resolver} {id : TypeId} {fuel : Nat} {answer : Bool}
    (held : resolver.Held id) (run : isUnresolvable fuel id resolver = .ok answer final) :
    answer = true := by
  cases fuel with
  | zero => cases run
  | succ fuel =>
      rw [held.run] at run
      obtain ⟨rfl, _⟩ := EStateM.Result.ok.inj run
      rfl

theorem Clear.answer {resolver final : Resolver} {id : TypeId} {fuel : Nat} {answer : Bool}
    (clear : resolver.Clear id) (run : isUnresolvable fuel id resolver = .ok answer final) :
    answer = false := by
  cases fuel with
  | zero => cases run
  | succ fuel =>
      rw [clear.run] at run
      obtain ⟨rfl, _⟩ := EStateM.Result.ok.inj run
      rfl

theorem Held.unresolvable {resolver : Resolver} {id : TypeId} (held : resolver.Held id) :
    resolver.Unresolvable id :=
  ⟨1, resolver, held.run 0⟩

theorem Held.not_resolvable {resolver : Resolver} {id : TypeId} (held : resolver.Held id) :
    ¬ resolver.Resolvable id := by
  rintro ⟨fuel, final, run⟩
  cases held.answer run

theorem Clear.resolvable {resolver : Resolver} {id : TypeId} (clear : resolver.Clear id) :
    resolver.Resolvable id :=
  ⟨1, resolver, clear.run 0⟩

theorem Clear.not_unresolvable {resolver : Resolver} {id : TypeId} (clear : resolver.Clear id) :
    ¬ resolver.Unresolvable id := by
  rintro ⟨fuel, final, run⟩
  cases clear.answer run

/-- A finite path from a type to an overridden one, through constituents that the
resolver has worked out and through types that are sound. -/
inductive HookPath (hooks : Registry) (kind : OpKind) (resolver : Resolver)
    (sound : TypeId → Prop) : TypeId → Prop where
  | overridden {id : TypeId} {entry : HookEntry} (isSound : sound id)
      (hook : resolver.table.Overridden hooks kind id entry) : HookPath hooks kind resolver sound id
  | constituent {id : TypeId} {slots : List Slot} {slot : Slot} (isSound : sound id)
      (parts : relevantSlots id kind resolver = .ok slots resolver) (member : slot ∈ slots)
      (path : HookPath hooks kind resolver sound slot.type) : HookPath hooks kind resolver sound id

/-- A path leads from a type to an overridden one, through types with a finite
structure. -/
def ReachesHook (resolver : Resolver) (hooks : Registry) (kind : OpKind) (id : TypeId) : Prop :=
  HookPath hooks kind resolver resolver.Resolvable id

/-- A type without a hook of its own, all of whose constituents lie in a region. -/
inductive Barren (hooks : Registry) (kind : OpKind) (resolver : Resolver)
    (region : TypeId → Prop) (id : TypeId) : Prop where
  | held (held : resolver.Held id) : Barren hooks kind resolver region id
  | clear {slots : List Slot} (clear : resolver.Clear id)
      (unbound : resolver.table.governingHook? hooks id kind = .ok none)
      (parts : relevantSlots id kind resolver = .ok slots resolver)
      (inside : ∀ slot ∈ slots, region slot.type) : Barren hooks kind resolver region id

/-- A type in a region that no path leaves and that holds no overridden type. -/
def Unhooked (resolver : Resolver) (hooks : Registry) (kind : OpKind) (id : TypeId) : Prop :=
  ∃ region : TypeId → Prop, region id ∧ ∀ other, region other →
    Barren hooks kind resolver region other

section Persistence

variable {hooks : Registry} {kind : OpKind} {resolver later : Resolver} {id : TypeId}

theorem relevantSlots_kept {final : Resolver} {slots : List Slot}
    (run : relevantSlots id kind resolver = .ok slots final)
    (extends_ : final.table.Extends later.table) :
    relevantSlots id kind later = .ok slots later := by
  have extended := ((relevantSlots_consults id kind).of_ok run).table.trans extends_
  unfold relevantSlots at run ⊢
  obtain ⟨type, middle, fetched, rest⟩ := bind_eq_ok.mp run
  obtain ⟨isType, unchanged⟩ := fetch_eq_ok.mp fetched
  rw [unchanged] at rest
  rw [bind_run_of_ok (fetch_eq_ok.mpr ⟨extended.get isType, rfl⟩)]
  split at rest
  · rename_i follows
    obtain ⟨table, asked, rfl⟩ := onTable_eq_ok.mp rest
    rw [if_pos follows]
    exact onTable_eq_ok.mpr ⟨later.table, TableM.constituents_kept asked extends_, rfl⟩
  · rename_i follows
    obtain ⟨rfl, rfl⟩ := EStateM.Result.ok.inj rest
    rw [if_neg follows]
    rfl

theorem Overridden.extends_ {entry : HookEntry} (extends_ : resolver.Extends later)
    (hook : resolver.table.Overridden hooks kind id entry) :
    later.table.Overridden hooks kind id entry :=
  TypeTable.governingHook?_eq_ok_some.mp
    (TypeTable.stable_governingHook? hooks id kind _ _ _ extends_.table
      (TypeTable.governingHook?_eq_ok_some.mpr hook))

theorem HookPath.extends_ {sound laterSound : TypeId → Prop} (extends_ : resolver.Extends later)
    (keepsSound : ∀ id, sound id → laterSound id)
    (path : HookPath hooks kind resolver sound id) : HookPath hooks kind later laterSound id := by
  induction path with
  | overridden isSound hook =>
      exact .overridden (keepsSound _ isSound) (Overridden.extends_ extends_ hook)
  | constituent isSound parts member path ih =>
      exact .constituent (keepsSound _ isSound) (relevantSlots_kept parts extends_.table) member ih

theorem Barren.extends_ {region wider : TypeId → Prop} (idle : resolver.Idle)
    (extends_ : resolver.Extends later) (widens : ∀ id, region id → wider id)
    (barren : Barren hooks kind resolver region id) : Barren hooks kind later wider id := by
  cases barren with
  | held held => exact .held (held.extends_ idle extends_)
  | clear clear unbound parts inside =>
      exact .clear (clear.extends_ idle extends_)
        (TypeTable.stable_governingHook? hooks id kind _ _ _ extends_.table unbound)
        (relevantSlots_kept parts extends_.table) fun slot member => widens _ (inside slot member)

theorem Unhooked.extends_ (idle : resolver.Idle) (extends_ : resolver.Extends later)
    (unhooked : resolver.Unhooked hooks kind id) : later.Unhooked hooks kind id := by
  obtain ⟨region, member, barren⟩ := unhooked
  exact ⟨region, member, fun other inside =>
    (barren other inside).extends_ idle extends_ fun _ same => same⟩

/-- No path leads from an unhooked type to an overridden one, not even after further
queries. -/
theorem Unhooked.no_path (idle : resolver.Idle) (extends_ : resolver.Extends later)
    (unhooked : resolver.Unhooked hooks kind id) : ¬ later.ReachesHook hooks kind id := by
  obtain ⟨region, member, barren⟩ := unhooked
  intro path
  unfold ReachesHook at path
  induction path with
  | overridden isSound hook =>
      cases (barren _ member).extends_ idle extends_ fun _ same => same with
      | held held => exact held.not_resolvable isSound
      | clear clear unbound parts inside =>
          cases unbound.symm.trans (TypeTable.governingHook?_eq_ok_some.mpr hook)
  | constituent isSound parts isSlot path ih =>
      cases (barren _ member).extends_ idle extends_ fun _ same => same with
      | held held => exact held.not_resolvable isSound
      | clear clear unbound same inside =>
          obtain ⟨rfl, _⟩ := EStateM.Result.ok.inj (parts.symm.trans same)
          exact ih (inside _ isSlot)

end Persistence
end Resolver
end LifecycleHooks

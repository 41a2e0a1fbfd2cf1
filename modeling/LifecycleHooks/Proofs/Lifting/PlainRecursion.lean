import LifecycleHooks.Proofs.Lifting.EffectiveOperation
import LifecycleHooks.Proofs.Lifting.Planning

/-!
# The plain recursion of an operation

An operation on a value calls the hook of its type, or goes on to the values that the
steps of a lifted operation lead to; the destruction of a value goes on to its base after
the hook.  A path of this recursion is the list of the turns taken, and the order of the
paths is the order of the calls.  Unlike a call plan, the recursion goes on when it comes
back to a type.
-/

namespace LifecycleHooks

/-- The spelling of a type that has one. -/
def TypeTable.spelling (table : TypeTable) (id : TypeId) : String :=
  match table.spell id with
  | .ok name => name
  | .error _ => ""

/-- A value that an operation goes on to.  It may stand for each element of the sequence
at a place. -/
structure Branch where
  type : TypeId
  place : String
  sequence? : Option String := none

/-- A loop over the elements of the sequence at a place. -/
abbrev Loop := String × TypeId

/-- The loops that lead to a value. -/
def Branch.loops (branch : Branch) : List Loop :=
  branch.sequence?.toList.map fun sequence => (sequence, branch.type)

/-- The values that a step leads to, in index order. -/
def Slot.branches (table : TypeTable) (place : String) (slot : Slot) : List Branch :=
  match slot.step with
  | .element (some count) =>
      (List.range count.toNat).map fun index => { type := slot.type, place := s!"{place}[{index}]" }
  | .element none => [{ type := slot.type, place := s!"{place}[i]", sequence? := some place }]
  | .field name => [{ type := slot.type, place := s!"{place}.{name}" }]
  | .tupleElement index => [{ type := slot.type, place := s!"{place}[{index}]" }]
  | .pointee => [{ type := slot.type, place := s!"{place}[]" }]
  | .base | .underlying => [{ type := slot.type, place := s!"{table.spelling slot.type}({place})" }]

theorem Slot.type_of_mem_branches {table : TypeTable} {place : String} {slot : Slot} {branch : Branch}
    (member : branch ∈ slot.branches table place) : branch.type = slot.type := by
  unfold Slot.branches at member
  split at member
  case h_1 =>
    obtain ⟨index, _, rfl⟩ := List.mem_map.mp member
    rfl
  all_goals
    obtain rfl := List.mem_singleton.mp member
    rfl

namespace Resolver

open Attempt ResolveM

/-- Asked for the operation on a type, the resolver gives this outcome. -/
def Operates (hooks : Registry) (resolver : Resolver) (id : TypeId) (kind : OpKind) (outcome : Outcome) :
    Prop :=
  ∃ fuel operation final, resolve hooks fuel id kind resolver = .ok operation final ∧
    operation.outcome = outcome

/-- The base that is destroyed after the hook of a type, if its own destruction is not
built in. -/
inductive BaseAfter (hooks : Registry) (resolver : Resolver) (id : TypeId) :
    OpKind → Option TypeId → Prop where
  | otherKind {kind : OpKind} (other : kind ≠ .destroy) : BaseAfter hooks resolver id kind none
  | noBase {body : Body} {table : TypeTable} (asked : TableM.body id resolver.table = .ok body table)
      (baseless : body.base = none) : BaseAfter hooks resolver id .destroy none
  | builtIn {body : Body} {table : TypeTable} {base : TypeId}
      (asked : TableM.body id resolver.table = .ok body table) (isBase : body.base = some base)
      (operates : resolver.Operates hooks base .destroy .builtIn) : BaseAfter hooks resolver id .destroy none
  | hooked {body : Body} {table : TypeTable} {base : TypeId} {outcome : Outcome}
      (asked : TableM.body id resolver.table = .ok body table) (isBase : body.base = some base)
      (operates : resolver.Operates hooks base .destroy outcome) (notBuiltIn : outcome.isBuiltIn = false) :
      BaseAfter hooks resolver id .destroy (some base)

/-- The hook called on a value, if one is, and the values that the operation goes on to. -/
inductive Level (hooks : Registry) (kind : OpKind) (resolver : Resolver) (id : TypeId) (place : String) :
    List HookCall → List Branch → Prop where
  | builtIn (operates : resolver.Operates hooks id kind .builtIn) :
      Level hooks kind resolver id place [] []
  | overridden {entry : HookEntry} {base? : Option TypeId}
      (operates : resolver.Operates hooks id kind (.overridden entry))
      (after : BaseAfter hooks resolver id kind base?) :
      Level hooks kind resolver id place [⟨place, id, entry⟩]
        (base?.toList.map fun base =>
          { type := base, place := s!"{resolver.table.spelling base}({place})" })
  | lifted {steps : List Slot} (operates : resolver.Operates hooks id kind (.lifted steps)) :
      Level hooks kind resolver id place [] (steps.flatMap (Slot.branches resolver.table place))

section Uniqueness

variable {hooks : Registry} {kind : OpKind} {resolver : Resolver} {id : TypeId} {place : String}

theorem Operates.unique {outcome other : Outcome} (operates : resolver.Operates hooks id kind outcome)
    (otherwise : resolver.Operates hooks id kind other) : outcome = other := by
  obtain ⟨fuel, operation, final, run, rfl⟩ := operates
  obtain ⟨more, operation', final', run', rfl⟩ := otherwise
  have steady := resolve_steady hooks id kind
  have first := steady fuel (fuel + more) (by omega) _ _ _ run
  have second := steady more (fuel + more) (by omega) _ _ _ run'
  rw [(EStateM.Result.ok.inj (first.symm.trans second)).1]

theorem BaseAfter.unique {base? other? : Option TypeId} (after : BaseAfter hooks resolver id kind base?)
    (otherwise : BaseAfter hooks resolver id kind other?) : base? = other? := by
  have sameBody {body other : Body} {table table' : TypeTable}
      (asked : TableM.body id resolver.table = .ok body table)
      (askedToo : TableM.body id resolver.table = .ok other table') : body = other :=
    (EStateM.Result.ok.inj (asked.symm.trans askedToo)).1
  cases after with
  | otherKind notDestroy =>
      cases otherwise with
      | otherKind => rfl
      | _ => exact absurd rfl notDestroy
  | noBase asked baseless =>
      cases otherwise with
      | otherKind notDestroy => exact absurd rfl notDestroy
      | noBase => rfl
      | builtIn => rfl
      | hooked askedToo isBase =>
          rw [sameBody asked askedToo] at baseless
          cases baseless.symm.trans isBase
  | builtIn asked isBase operates =>
      cases otherwise with
      | otherKind notDestroy => exact absurd rfl notDestroy
      | noBase => rfl
      | builtIn => rfl
      | hooked askedToo isOther operatesToo notBuiltIn =>
          rw [sameBody asked askedToo] at isBase
          obtain rfl := Option.some.inj (isBase.symm.trans isOther)
          rw [← operates.unique operatesToo] at notBuiltIn
          cases notBuiltIn
  | hooked asked isBase operates notBuiltIn =>
      cases otherwise with
      | otherKind notDestroy => exact absurd rfl notDestroy
      | noBase askedToo baseless =>
          rw [← sameBody asked askedToo] at baseless
          cases baseless.symm.trans isBase
      | builtIn askedToo isOther operatesToo =>
          rw [sameBody asked askedToo] at isBase
          obtain rfl := Option.some.inj (isBase.symm.trans isOther)
          rw [operates.unique operatesToo] at notBuiltIn
          cases notBuiltIn
      | hooked askedToo isOther =>
          rw [sameBody asked askedToo] at isBase
          exact isBase.symm.trans isOther

/-- How the recursion goes on from a value is determined. -/
theorem Level.unique {calls otherCalls : List HookCall} {branches otherBranches : List Branch}
    (level : Level hooks kind resolver id place calls branches)
    (otherwise : Level hooks kind resolver id place otherCalls otherBranches) :
    calls = otherCalls ∧ branches = otherBranches := by
  cases level with
  | builtIn operates =>
      cases otherwise with
      | builtIn => exact ⟨rfl, rfl⟩
      | overridden operatesToo => cases operates.unique operatesToo
      | lifted operatesToo => cases operates.unique operatesToo
  | overridden operates after =>
      cases otherwise with
      | builtIn operatesToo => cases operates.unique operatesToo
      | overridden operatesToo afterToo =>
          obtain rfl := Outcome.overridden.inj (operates.unique operatesToo)
          rw [after.unique afterToo]
          exact ⟨rfl, rfl⟩
      | lifted operatesToo => cases operates.unique operatesToo
  | lifted operates =>
      cases otherwise with
      | builtIn operatesToo => cases operates.unique operatesToo
      | overridden operatesToo => cases operates.unique operatesToo
      | lifted operatesToo =>
          obtain rfl := Outcome.lifted.inj (operates.unique operatesToo)
          exact ⟨rfl, rfl⟩

/-- The hook of an overridden operation is called, and no other one. -/
theorem Level.mem_calls_iff {calls : List HookCall} {branches : List Branch} {call : HookCall}
    (level : Level hooks kind resolver id place calls branches) :
    call ∈ calls ↔ ∃ entry, resolver.Operates hooks id kind (.overridden entry) ∧ call = ⟨place, id, entry⟩ := by
  cases level with
  | builtIn operates => simpa using fun entry otherwise => nomatch operates.unique otherwise
  | lifted operates => simpa using fun entry otherwise => nomatch operates.unique otherwise
  | @overridden entry base? operates after =>
      refine List.mem_singleton.trans ⟨fun same => ⟨entry, operates, same⟩, ?_⟩
      rintro ⟨other, otherwise, rfl⟩
      rw [Outcome.overridden.inj (operates.unique otherwise)]

theorem Level.length_calls_le {calls : List HookCall} {branches : List Branch}
    (level : Level hooks kind resolver id place calls branches) : calls.length ≤ 1 := by
  cases level <;> simp

end Uniqueness

section Answered

variable {hooks : Registry} {kind : OpKind} {resolver final later : Resolver} {id : TypeId} {place : String}

/-- What was resolved is answered ever after. -/
theorem operates_of_run {fuel : Nat} {operation : Operation}
    (run : resolve hooks fuel id kind resolver = .ok operation final) (extends_ : final.Extends later) :
    later.operations.lookup (id, kind) = some operation.outcome ∧
      later.Operates hooks id kind operation.outcome := by
  have kept := extends_.operations _ _ (resolve_kept run).1
  refine ⟨kept, fuel, ⟨id, kind, operation.outcome⟩, later, ?_, rfl⟩
  unfold resolve at run ⊢
  split at run
  · cases run
  · rename_i frozen
    rw [if_neg frozen, bind_run_of_ok (known?_run later id kind), kept]
    rfl

/-- A kept operation is answered. -/
theorem operates_of_kept {outcome : Outcome} (frozen : hooks.frozen = true)
    (kept : resolver.operations.lookup (id, kind) = some outcome) : resolver.Operates hooks id kind outcome := by
  refine ⟨0, ⟨id, kind, outcome⟩, resolver, ?_, rfl⟩
  unfold resolve
  rw [frozen, if_neg (by simp), known?_bind_run, kept]
  rfl

theorem baseAfter_of_run {fuel : Nat} {base? : Option TypeId}
    (run : destroyedBase? hooks fuel id kind resolver = .ok base? final) (extends_ : final.Extends later) :
    BaseAfter hooks later id kind base? := by
  unfold destroyedBase? at run
  cases kind with
  | destroy =>
      obtain ⟨body, middle, asked, run⟩ := bind_eq_ok.mp run
      obtain ⟨table, answered, rfl⟩ := onTable_eq_ok.mp asked
      cases isBase : body.base with
      | none =>
          rw [isBase] at run
          obtain ⟨rfl, rfl⟩ := EStateM.Result.ok.inj run
          exact .noBase (TableM.body_kept answered extends_.table) isBase
      | some base =>
          rw [isBase] at run
          obtain ⟨operation, last, resolved, run⟩ := bind_eq_ok.mp run
          have learned := (resolve_extends hooks fuel base .destroy).of_ok resolved
          cases builtIn : operation.isBuiltIn with
          | true =>
              rw [builtIn] at run
              obtain ⟨rfl, rfl⟩ := EStateM.Result.ok.inj run
              have operates := (operates_of_run resolved extends_).2
              have isBuiltIn : operation.outcome = .builtIn := by
                cases outcome : operation.outcome <;> simp_all [Operation.isBuiltIn, Outcome.isBuiltIn]
              rw [isBuiltIn] at operates
              exact .builtIn (TableM.body_kept answered (learned.trans extends_).table) isBase operates
          | false =>
              rw [builtIn] at run
              obtain ⟨rfl, rfl⟩ := EStateM.Result.ok.inj run
              exact .hooked (TableM.body_kept answered (learned.trans extends_).table) isBase
                (operates_of_run resolved extends_).2 builtIn
  | _ =>
      obtain ⟨rfl, rfl⟩ := EStateM.Result.ok.inj run
      exact .otherKind (by simp)

theorem convertedPlace_eq {converted : String}
    (run : convertedPlace id place resolver = .ok converted final)
    (extends_ : resolver.Extends later) :
    final = resolver ∧ converted = s!"{later.table.spelling id}({place})" := by
  obtain ⟨name, middle, asked, rest⟩ := bind_eq_ok.mp run
  obtain ⟨spelled, rfl⟩ := ask_eq_ok.mp asked
  obtain ⟨rfl, rfl⟩ := EStateM.Result.ok.inj rest
  have stillSpelled : later.table.spell id = .ok name :=
    TypeTable.stable_spell id _ _ name extends_.table spelled
  unfold TypeTable.spelling
  rw [stillSpelled]
  exact ⟨rfl, rfl⟩

/-- A constituent that is no element stands alone at its place. -/
theorem branches_of_slotPlace {slot : Slot} {part : String} (alone : ∀ count, slot.step ≠ .element count)
    (run : slotPlace slot place resolver = .ok part final) (extends_ : resolver.Extends later) :
    final = resolver ∧ slot.branches later.table place = [{ type := slot.type, place := part }] := by
  unfold slotPlace at run
  unfold Slot.branches
  cases isStep : slot.step with
  | element count => exact absurd isStep (alone count)
  | base =>
      rw [isStep] at run
      obtain ⟨same, rfl⟩ := convertedPlace_eq run extends_
      exact ⟨same, rfl⟩
  | underlying =>
      rw [isStep] at run
      obtain ⟨same, rfl⟩ := convertedPlace_eq run extends_
      exact ⟨same, rfl⟩
  | _ =>
      rw [isStep] at run
      obtain ⟨rfl, rfl⟩ := EStateM.Result.ok.inj run
      exact ⟨rfl, rfl⟩

end Answered

section Within

variable {hooks : Registry} {kind : OpKind} {trees : Set TypeTree} {resolver : Resolver} {id : TypeId}
  {place : String}

/-- Only about existing types are operations kept. -/
theorem Ready.has {outcome : Outcome} (ready : resolver.Ready hooks)
    (kept : resolver.operations.lookup (id, kind) = some outcome) : resolver.table.Has id := by
  cases (ready.explained id kind outcome kept).held_or_clear with
  | inl held =>
      cases held.1 with
      | grows judged => exact judged.has
      | cyclic judged => exact judged.has
  | inr clear => exact clear.judged.has

/-- The recursion stays among the types of the set, as far as they exist. -/
theorem Level.within {calls : List HookCall} {branches : List Branch} (prepared : resolver.Prepared hooks trees [id])
    (level : Level hooks kind resolver id place calls branches) {branch : Branch} (member : branch ∈ branches)
    (has : resolver.table.Has branch.type) : resolver.table.Within trees branch.type := by
  have wellFormed := prepared.confined.intact.regular.toWellFormed
  cases level with
  | builtIn => cases member
  | overridden operates after =>
      cases after with
      | @hooked body table base outcome asked isBase =>
          obtain rfl := List.mem_singleton.mp member
          have spared : resolver.Spared id := by
            obtain ⟨fuel, operation, final, run, isHook⟩ := operates
            obtain ⟨_, _, _, explained⟩ := resolve_explained prepared.ready run
            have persists := ((persists_leadsQueries hooks).resolves fuel id .destroy).of_ok run
            have learned := (resolve_extends hooks fuel id .destroy).of_ok run
            rw [isHook] at explained
            cases explained with
            | overridden clear => exact ⟨final, persists, learned.table, clear.judged⟩
          have settles : Settles (fun body later => ∀ slot ∈ body.slots, later.table.Within trees slot.type)
              (fun _ => onTable (TableM.body id)) resolver :=
            body_settles prepared.confined (prepared.within id (by simp)) spared
          obtain ⟨_, _, inside, answers⟩ := settles
          obtain ⟨_, same⟩ := answers.exists
          obtain ⟨rfl, rfl⟩ := EStateM.Result.ok.inj (same.symm.trans (onTable_eq_ok.mpr ⟨table, asked, rfl⟩))
          have within := inside ⟨.base, base⟩ (by simp [Body.slots, isBase])
          have extends_ := (TableM.body_extends id).of_ok asked
          exact ⟨has, wellFormed.tree_extends extends_ has ▸ within.2⟩
      | _ => cases member
  | lifted operates =>
      obtain ⟨slot, isStep, inBranches⟩ := List.mem_flatMap.mp member
      obtain ⟨fuel, operation, final, run, lifted⟩ := operates
      rw [Slot.type_of_mem_branches inBranches] at has ⊢
      have within := steps_within prepared run lifted slot isStep
      have extends_ := ((resolve_extends hooks fuel id kind).of_ok run).table
      exact ⟨has, wellFormed.tree_extends extends_ has ▸ within.2⟩

end Within
end Resolver
end LifecycleHooks

import LifecycleHooks.Proofs.Lifting.Agreement
import LifecycleHooks.Proofs.Lifting.Planning

/-!
# Answers of resolvers that are alike

Two resolvers over one type table are alike in a kind of operation when they keep the same
operations of it and hold the same types to be unresolvable, whatever else they keep.  The
answers of both are compared as they are seen by the resolvers that are left in the end,
because the second resolver is asked only after the first one has given its whole answer.
Where these are alike, both have given the same operations and plans of the kind.
-/

namespace LifecycleHooks

open Attempt ResolveM Resolver

namespace Resolver

/-- Two resolvers that keep the same operations of a kind, and neither of which holds a type to be
unresolvable that is clear to the other one. -/
structure Alike (kind : OpKind) (first second : Resolver) : Prop where
  agrees : Agrees first second
  operations : ∀ id outcome other, first.operations.lookup (id, kind) = some outcome →
    second.operations.lookup (id, kind) = some other → outcome = other

end Resolver

namespace ResolveM

section Rules

variable {kind : OpKind} {First Second : Type}

/-- A computation gave an answer before the resolver came to be as it is. -/
def Gave (action : ResolveM First) (answer : First) (later : Resolver) : Prop :=
  ∃ before after : Resolver, before.Idle ∧ action before = .ok answer after ∧ after.Extends later

theorem Gave.bind_cases {action : ResolveM First} {next : First → ResolveM Second} {answer : Second}
    {later : Resolver} (learns : action.Preserves Extends) (goesOn : ∀ result, (next result).Preserves Extends)
    (gave : Gave (action >>= next) answer later) :
    ∃ result, Gave action result later ∧ Gave (next result) answer later := by
  obtain ⟨before, after, idle, run, onwards⟩ := gave
  obtain ⟨result, middle, acted, rest⟩ := bind_eq_ok.mp run
  have behind := (goesOn result).of_ok rest
  exact ⟨result, ⟨before, middle, idle, acted, behind.trans onwards⟩,
    ⟨middle, after, idle.extends_ (learns.of_ok acted), rest, onwards⟩⟩

/-- Two computations that give the same answer, one to each of two resolvers that become alike. -/
structure AnswersAlike (kind : OpKind) (action other : ResolveM First) : Prop where
  learns : action.Preserves Extends
  learnsToo : other.Preserves Extends
  same : ∀ {first second : Resolver} {answer answer' : First}, Alike kind first second →
    Gave action answer first → Gave other answer' second → answer = answer'

theorem alike_pure (answer : First) : AnswersAlike kind (pure answer) (pure answer) where
  learns := leads_pure answer
  learnsToo := leads_pure answer
  same _ gave gave' := by
    obtain ⟨_, _, _, run, _⟩ := gave
    obtain ⟨_, _, _, run', _⟩ := gave'
    obtain ⟨rfl, _⟩ := EStateM.Result.ok.inj run
    exact (EStateM.Result.ok.inj run').1

/-- A computation that fails gives no answer to compare. -/
theorem alike_throw (fault : Fault) {other : ResolveM First} (learns : other.Preserves Extends) :
    AnswersAlike kind (throw fault) other where
  learns := leads_throw fault
  learnsToo := learns
  same _ gave _ := by
    obtain ⟨_, _, _, run, _⟩ := gave
    cases run

theorem alike_throw_right (fault : Fault) {action : ResolveM First} (learns : action.Preserves Extends) :
    AnswersAlike kind action (throw fault) where
  learns := learns
  learnsToo := leads_throw fault
  same _ _ gave := by
    obtain ⟨_, _, _, run, _⟩ := gave
    cases run

theorem AnswersAlike.bind {action other : ResolveM First} {next follow : First → ResolveM Second}
    (first : AnswersAlike kind action other) (second : ∀ answer, AnswersAlike kind (next answer) (follow answer)) :
    AnswersAlike kind (action >>= next) (other >>= follow) where
  learns := first.learns.bind fun answer => (second answer).learns
  learnsToo := first.learnsToo.bind fun answer => (second answer).learnsToo
  same alike gave gave' := by
    obtain ⟨answer, gaveFirst, gaveSecond⟩ := gave.bind_cases first.learns fun answer => (second answer).learns
    obtain ⟨answer', gaveFirst', gaveSecond'⟩ := gave'.bind_cases first.learnsToo fun answer => (second answer).learnsToo
    obtain rfl := first.same alike gaveFirst gaveFirst'
    exact (second answer).same alike gaveSecond gaveSecond'

theorem alike_mapM {items : List First} {action other : First → ResolveM Second}
    (each : ∀ item, AnswersAlike kind (action item) (other item)) :
    AnswersAlike kind (items.mapM action) (items.mapM other) := by
  induction items with
  | nil => exact alike_pure _
  | cons item items ih =>
      rw [List.mapM_cons, List.mapM_cons]
      exact (each item).bind fun _ => ih.bind fun _ => alike_pure _

/-- What the table answers for good it answers both. -/
theorem alike_onTable {action : TableM First} (learns : (onTable action).Preserves Extends)
    (kept : ∀ {table larger later : TypeTable} {answer : First}, action table = .ok answer larger →
      larger.Extends later → action later = .ok answer later) :
    AnswersAlike kind (onTable action) (onTable action) where
  learns := learns
  learnsToo := learns
  same alike gave gave' := by
    obtain ⟨_, _, _, run, onwards⟩ := gave
    obtain ⟨_, _, _, run', onwards'⟩ := gave'
    obtain ⟨_, answered, rfl⟩ := onTable_eq_ok.mp run
    obtain ⟨_, answered', rfl⟩ := onTable_eq_ok.mp run'
    have again := kept answered onwards.table
    rw [alike.agrees.sameTable] at again
    exact (EStateM.Result.ok.inj (again.symm.trans (kept answered' onwards'.table))).1

theorem alike_ask {question : TypeTable → Except Fault First} (stable : TypeTable.IsStable question) :
    AnswersAlike kind (ask question) (ask question) where
  learns := ask_leads question
  learnsToo := ask_leads question
  same alike gave gave' := by
    obtain ⟨_, _, _, run, onwards⟩ := gave
    obtain ⟨_, _, _, run', onwards'⟩ := gave'
    obtain ⟨answered, rfl⟩ := ask_eq_ok.mp run
    obtain ⟨answered', rfl⟩ := ask_eq_ok.mp run'
    have again := stable _ _ _ onwards.table answered
    rw [alike.agrees.sameTable] at again
    exact Except.ok.inj (again.symm.trans (stable _ _ _ onwards'.table answered'))

end Rules

section Questions

variable {kind : OpKind}

theorem body_alike (id : TypeId) : AnswersAlike kind (onTable (TableM.body id)) (onTable (TableM.body id)) :=
  alike_onTable ((extends_leadsQueries {}).bodies id) fun run extends_ => TableM.body_kept run extends_

theorem constituents_alike (id : TypeId) :
    AnswersAlike kind (onTable (TableM.constituents id)) (onTable (TableM.constituents id)) :=
  alike_onTable ((extends_leadsQueries {}).constituents id) fun run extends_ => TableM.constituents_kept run extends_

theorem isUnresolvable_alike (fuel fuel' : Nat) (id : TypeId) :
    AnswersAlike kind (isUnresolvable fuel id) (isUnresolvable fuel' id) where
  learns := (extends_leadsQueries {}).unresolvable fuel id
  learnsToo := (extends_leadsQueries {}).unresolvable fuel' id
  same {_ _ answer answer'} alike gave gave' := by
    obtain ⟨_, _, idle, run, onwards⟩ := gave
    obtain ⟨_, _, idle', run', onwards'⟩ := gave'
    have settledIdle := idle.extends_ ((isUnresolvable_consults fuel id).of_ok run).toExtends
    have settledIdle' := idle'.extends_ ((isUnresolvable_consults fuel' id).of_ok run').toExtends
    have settled := settled_of_run idle run
    have settled' := settled_of_run idle' run'
    cases answer with
    | true =>
        cases answer' with
        | true => rfl
        | false =>
            exact absurd (Clear.extends_ settled' settledIdle' onwards')
              (alike.agrees.held id (Held.extends_ settled settledIdle onwards))
    | false =>
        cases answer' with
        | true =>
            exact absurd (Held.extends_ settled' settledIdle' onwards')
              (alike.agrees.clear id (Clear.extends_ settled settledIdle onwards))
        | false => rfl

theorem resolve_alike (hooks more : Registry) (fuel fuel' : Nat) (id : TypeId) :
    AnswersAlike kind (resolve hooks fuel id kind) (resolve more fuel' id kind) where
  learns := resolve_extends hooks fuel id kind
  learnsToo := resolve_extends more fuel' id kind
  same alike gave gave' := by
    obtain ⟨_, _, _, run, onwards⟩ := gave
    obtain ⟨_, _, _, run', onwards'⟩ := gave'
    obtain ⟨kept, isOperation⟩ := resolve_kept run
    obtain ⟨kept', isOperation'⟩ := resolve_kept run'
    rw [isOperation, isOperation',
      alike.operations id _ _ (onwards.operations _ _ kept) (onwards'.operations _ _ kept')]

end Questions

section Plans

variable {kind : OpKind} (hooks more : Registry)

theorem convertedPlace_alike (id : TypeId) (place : String) :
    AnswersAlike kind (convertedPlace id place) (convertedPlace id place) :=
  (alike_ask (TypeTable.stable_spell id)).bind fun _ => alike_pure _

theorem slotPlace_alike (slot : Slot) (place : String) :
    AnswersAlike kind (slotPlace slot place) (slotPlace slot place) := by
  unfold slotPlace
  cases slot.step with
  | field name => exact alike_pure _
  | tupleElement index => exact alike_pure _
  | pointee => exact alike_pure _
  | base => exact convertedPlace_alike _ _
  | underlying => exact convertedPlace_alike _ _
  | element count => exact convertedPlace_alike _ _

theorem destroyedBase?_alike (fuel fuel' : Nat) (id : TypeId) :
    AnswersAlike kind (destroyedBase? hooks fuel id kind) (destroyedBase? more fuel' id kind) := by
  cases kind with
  | destroy =>
      refine (body_alike id).bind fun body => ?_
      cases body.base with
      | none => exact alike_pure _
      | some base =>
          refine (resolve_alike hooks more fuel fuel' base).bind fun operation => ?_
          split <;> exact alike_pure _
  | assign => exact alike_pure _
  | deepCopy => exact alike_pure _

variable {hooks more}

theorem expandSlot_alike {plan other : TypeId → String → ResolveM (List CallNode)}
    (plans : ∀ id place, AnswersAlike kind (plan id place) (other id place)) (place : String) (slot : Slot) :
    AnswersAlike kind (expandSlot plan place slot) (expandSlot other place slot) := by
  unfold expandSlot
  split
  · exact (alike_mapM fun _ => plans _ _).bind fun _ => alike_pure _
  · exact (plans _ _).bind fun _ => alike_pure _
  · exact (slotPlace_alike slot place).bind fun _ => plans _ _

theorem copySlot_alike {plan other : TypeId → String → ResolveM (List CopyNode)}
    (plans : ∀ id place, AnswersAlike kind (plan id place) (other id place)) (place : String) (slot : Slot) :
    AnswersAlike kind (copySlot plan place slot) (copySlot other place slot) := by
  unfold copySlot
  split
  · exact (alike_mapM fun _ => plans _ _).bind fun _ => alike_pure _
  · exact alike_pure _
  · exact (slotPlace_alike slot place).bind fun _ => plans _ _

theorem copyInside_alike {plan other : TypeId → String → ResolveM (List CopyNode)}
    (plans : ∀ id place, AnswersAlike kind (plan id place) (other id place)) (id : TypeId) (place : String)
    (type : TypeDef) : AnswersAlike kind (copyInside plan id place type) (copyInside other id place type) := by
  unfold copyInside
  split
  · exact (plans _ _).bind fun _ => alike_pure _
  · exact (plans _ _).bind fun _ => alike_pure _
  · exact (plans _ _).bind fun _ => alike_pure _
  · exact (constituents_alike id).bind fun _ => (alike_mapM (copySlot_alike plans place)).bind fun _ => alike_pure _

variable (hooks more)

/-- The plans of two resolvers that become alike are the same, with whatever budgets they were made. -/
theorem expandWithin_alike (fuel fuel' : Nat) (active : List TypeId) (id : TypeId) (place : String) :
    AnswersAlike kind (expandWithin hooks kind fuel active id place) (expandWithin more kind fuel' active id place) := by
  induction fuel generalizing fuel' active id place with
  | zero => exact alike_throw _ (expandWithin_leads (extends_leadsQueries more) kind fuel' active id place)
  | succ fuel ih =>
      cases fuel' with
      | zero =>
          exact alike_throw_right _ (expandWithin_leads (extends_leadsQueries hooks) kind (fuel + 1) active id place)
      | succ fuel' =>
          rw [expandWithin_succ, expandWithin_succ]
          refine (resolve_alike hooks more fuel fuel' id).bind fun operation => ?_
          cases operation.outcome with
          | builtIn => exact alike_pure _
          | overridden entry =>
              refine (destroyedBase?_alike hooks more fuel fuel' id).bind fun base? => ?_
              cases base? with
              | none => exact alike_pure _
              | some base =>
                  dsimp only
                  split
                  · exact alike_pure _
                  · exact (convertedPlace_alike base place).bind fun _ =>
                      (ih fuel' _ base _).bind fun _ => alike_pure _
          | lifted steps =>
              dsimp only
              split
              · exact alike_pure _
              · exact (alike_mapM (expandSlot_alike (ih fuel' _) place)).bind fun _ => alike_pure _

theorem visitForStorage_alike (fuel fuel' : Nat) (id : TypeId) :
    AnswersAlike kind (visitForStorage fuel id) (visitForStorage fuel' id) := by
  refine (isUnresolvable_alike fuel fuel' id).bind fun unresolvable => ?_
  split
  · exact alike_pure _
  · refine (alike_ask (TypeTable.stable_get id)).bind fun type => ?_
    split
    · exact alike_pure _
    · exact (constituents_alike id).bind fun _ => alike_pure _

/-- Two searches come to the same end when all their visits do. -/
theorem search_alike {visit other : Nat → TypeId → ResolveM (Option (List TypeId))}
    (visits : ∀ fuel fuel' id, AnswersAlike kind (visit fuel id) (other fuel' id)) (fuel fuel' : Nat)
    (seen pending : List TypeId) :
    AnswersAlike kind (search visit fuel seen pending) (search other fuel' seen pending) := by
  induction fuel generalizing fuel' seen pending with
  | zero => exact alike_throw _ (search_leads (fun less _ id => (visits 0 less id).learnsToo) seen pending)
  | succ fuel ih =>
      cases fuel' with
      | zero => exact alike_throw_right _ (search_leads (fun less _ id => (visits less 0 id).learns) seen pending)
      | succ fuel' =>
          cases pending with
          | nil => exact alike_pure _
          | cons id pending =>
              rw [search, search]
              split
              · exact ih fuel' seen pending
              · refine (visits fuel fuel' id).bind fun found => ?_
                cases found with
                | none => exact alike_pure _
                | some next => exact ih fuel' _ _

theorem ownsStorage_alike (fuel fuel' : Nat) (id : TypeId) :
    AnswersAlike kind (ownsStorage fuel id) (ownsStorage fuel' id) := by
  unfold ownsStorage
  rw [searchStorage_eq_search, searchStorage_eq_search]
  exact search_alike visitForStorage_alike fuel fuel' _ _

/-- The copy plans of two resolvers that become alike in deep copies are the same. -/
theorem copyWithin_alike (fuel fuel' : Nat) (active : List TypeId) (id : TypeId) (place : String) :
    AnswersAlike .deepCopy (copyWithin hooks fuel active id place) (copyWithin more fuel' active id place) := by
  induction fuel generalizing fuel' active id place with
  | zero => exact alike_throw _ (copyWithin_leads (extends_leadsQueries more) fuel' active id place)
  | succ fuel ih =>
      cases fuel' with
      | zero => exact alike_throw_right _ (copyWithin_leads (extends_leadsQueries hooks) (fuel + 1) active id place)
      | succ fuel' =>
          rw [copyWithin_succ, copyWithin_succ]
          refine (isUnresolvable_alike fuel fuel' id).bind fun unresolvable => ?_
          split
          · exact alike_pure _
          · refine (resolve_alike hooks more fuel fuel' id).bind fun operation => ?_
            cases operation.outcome with
            | overridden entry => exact alike_pure _
            | _ =>
                refine (alike_ask (TypeTable.stable_get id)).bind fun type => ?_
                split
                · refine (ownsStorage_alike fuel fuel' id).bind fun owns => ?_
                  split <;> exact alike_pure _
                · exact copyInside_alike (ih fuel' _) id place type

end Plans
end ResolveM
end LifecycleHooks

import LifecycleHooks.Proofs.Lifting.Planning

/-!
# Answers that are given again

What a resolver answered once it answers again, at once and unchanged, however much was
asked in between.  So operations and plans can be read off the resolver that is left in the
end.
-/

namespace LifecycleHooks

namespace Attempt

variable {State First Second Result : Type} {relation : State → State → Prop}

/-- A computation preserves a relation, and what it answers it answers again in every later
state, which it leaves as it is. -/
structure Repeats (relation : State → State → Prop) (action : Attempt State Result) : Prop where
  preserves : action.Preserves relation
  again : ∀ {state result final later}, action state = .ok result final → relation final later →
    action later = .ok result later

variable [IsPreorder State relation]

theorem repeats_pure (result : Result) : (pure result : Attempt State Result).Repeats relation where
  preserves := leads_pure result
  again run _ := by
    obtain ⟨rfl, rfl⟩ := EStateM.Result.ok.inj run
    rfl

theorem repeats_throw (fault : Fault) : (throw fault : Attempt State Result).Repeats relation where
  preserves := leads_throw fault
  again run _ := by cases run

theorem repeats_ofExcept (answer : Except Fault Result) :
    (ofExcept answer : Attempt State Result).Repeats relation where
  preserves := leads_ofExcept answer
  again run _ := ofExcept_eq_ok.mpr ⟨(ofExcept_eq_ok.mp run).1, rfl⟩

theorem Repeats.bind {action : Attempt State First} {next : First → Attempt State Second}
    (first : action.Repeats relation) (second : ∀ result, (next result).Repeats relation) :
    (action >>= next).Repeats relation where
  preserves := first.preserves.bind fun result => (second result).preserves
  again {state result final later} run onwards := by
    obtain ⟨middle, between, acted, rest⟩ := bind_eq_ok.mp run
    have behind : relation between later := trans_of relation ((second middle).preserves.of_ok rest) onwards
    rw [bind_run_of_ok (first.again acted behind)]
    exact (second middle).again rest onwards

/-- Each of several answers is given again in every later state. -/
theorem mapM_each_again {items : List First} {action : First → Attempt State Second}
    {state final later : State} {results : List Second}
    (repeats : ∀ item, (action item).Repeats relation)
    (run : items.mapM action state = .ok results final) (onwards : relation final later) :
    List.Forall₂ (fun item result => action item later = .ok result later) items results := by
  have told := mapM_tells (fun state item result => ∀ later, relation state later →
      action item later = .ok result later) (fun item => (repeats item).preserves)
    (fun item _ _ _ acted _ behind => (repeats item).again acted behind)
    (fun _ _ _ _ told between _ behind => told _ (trans_of relation between behind)) run
  exact told.imp fun _ _ again => again later onwards

theorem repeats_mapM {items : List First} {action : First → Attempt State Second}
    (repeats : ∀ item, (action item).Repeats relation) : (items.mapM action).Repeats relation where
  preserves := leads_mapM fun item _ => (repeats item).preserves
  again {state results final later} run onwards := by
    have each := mapM_each_again repeats run onwards
    clear run
    induction each with
    | nil => rfl
    | cons first rest ih =>
        rw [List.mapM_cons, bind_run_of_ok first, bind_run_of_ok ih]
        rfl

end Attempt

open Attempt ResolveM Resolver

namespace ResolveM

variable (hooks : Registry)

theorem ask_repeats {Result : Type} {question : TypeTable → Except Fault Result}
    (stable : TypeTable.IsStable question) : (ask question).Repeats Extends where
  preserves := ask_leads question
  again run extends_ := by
    obtain ⟨answered, rfl⟩ := ask_eq_ok.mp run
    exact ask_eq_ok.mpr ⟨stable _ _ _ extends_.table answered, rfl⟩

theorem body_repeats (id : TypeId) : (onTable (TableM.body id)).Repeats Extends where
  preserves := (extends_leadsQueries {}).bodies id
  again {_ _ _ later} run extends_ := by
    obtain ⟨table, answered, rfl⟩ := onTable_eq_ok.mp run
    exact onTable_eq_ok.mpr ⟨later.table, TableM.body_kept answered extends_.table, rfl⟩

theorem resolve_repeats (fuel : Nat) (id : TypeId) (kind : OpKind) :
    (resolve hooks fuel id kind).Repeats Extends where
  preserves := resolve_extends hooks fuel id kind
  again {_ _ _ later} run extends_ := by
    obtain ⟨kept, isOperation⟩ := resolve_kept run
    have known := extends_.operations _ _ kept
    unfold resolve at run ⊢
    split at run
    · cases run
    · rename_i frozen
      rw [if_neg frozen, bind_run_of_ok (known?_run later id kind), known, isOperation]
      rfl

section Plans

theorem convertedPlace_repeats (id : TypeId) (place : String) :
    (convertedPlace id place).Repeats Extends :=
  (ask_repeats (TypeTable.stable_spell id)).bind fun _ => repeats_pure _

theorem slotPlace_repeats (slot : Slot) (place : String) : (slotPlace slot place).Repeats Extends := by
  unfold slotPlace
  cases slot.step with
  | field name => exact repeats_pure _
  | tupleElement index => exact repeats_pure _
  | pointee => exact repeats_pure _
  | base => exact convertedPlace_repeats _ _
  | underlying => exact convertedPlace_repeats _ _
  | element count => exact convertedPlace_repeats _ _

theorem destroyedBase?_repeats (fuel : Nat) (id : TypeId) (kind : OpKind) :
    (destroyedBase? hooks fuel id kind).Repeats Extends := by
  cases kind with
  | destroy =>
      refine (body_repeats id).bind fun body => ?_
      cases body.base with
      | none => exact repeats_pure _
      | some base =>
          refine (resolve_repeats hooks fuel base .destroy).bind fun operation => ?_
          split <;> exact repeats_pure _
  | _ => exact repeats_pure _

theorem expandSlot_repeats {plan : TypeId → String → ResolveM (List CallNode)}
    (repeats : ∀ id place, (plan id place).Repeats Extends) (place : String) (slot : Slot) :
    (expandSlot plan place slot).Repeats Extends := by
  unfold expandSlot
  split
  · exact (repeats_mapM fun _ => repeats _ _).bind fun _ => repeats_pure _
  · exact (repeats _ _).bind fun _ => repeats_pure _
  · exact (slotPlace_repeats slot place).bind fun _ => repeats _ _

/-- A plan that was given is given again. -/
theorem expandWithin_repeats (kind : OpKind) (fuel : Nat) (active : List TypeId) (id : TypeId)
    (place : String) : (expandWithin hooks kind fuel active id place).Repeats Extends := by
  induction fuel generalizing active id place with
  | zero => exact repeats_throw _
  | succ fuel ih =>
      rw [expandWithin_succ]
      refine (resolve_repeats hooks fuel id kind).bind fun operation => ?_
      cases operation.outcome with
      | builtIn => exact repeats_pure _
      | overridden entry =>
          refine (destroyedBase?_repeats hooks fuel id kind).bind fun base? => ?_
          cases base? with
          | none => exact repeats_pure _
          | some base =>
              dsimp only
              split
              · exact repeats_pure _
              · exact (convertedPlace_repeats base place).bind fun _ =>
                  (ih _ base _).bind fun _ => repeats_pure _
      | lifted steps =>
          dsimp only
          split
          · exact repeats_pure _
          · exact (repeats_mapM (expandSlot_repeats (ih _) place)).bind fun _ => repeats_pure _

end Plans
end ResolveM
end LifecycleHooks

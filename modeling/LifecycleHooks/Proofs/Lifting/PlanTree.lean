import LifecycleHooks.Proofs.Lifting.PlainRecursion

/-!
# Plans and the plain recursion

Whatever plan a resolver gives for a value follows the plain recursion: it calls the hook of
the value, and goes on to the values behind it, each element of a sequence inside of a loop.
Where it comes back to an open type it breaks off with a call of the lifted operation.
-/

namespace LifecycleHooks

/-- What is planned for a value, inside of a loop if the value stands for each element of a
sequence.  A loop around nothing is left out. -/
def Branch.wrap (branch : Branch) (body : List CallNode) : List CallNode :=
  match branch.sequence? with
  | none => body
  | some sequence => if body.isEmpty then [] else [.elements sequence branch.type body]

namespace Resolver

open Attempt ResolveM

/-- An operation that goes on to other values, even if there are none of them: it is
lifted, or a base follows its hook. -/
inductive Recurs (hooks : Registry) (kind : OpKind) (resolver : Resolver) (id : TypeId) : Prop where
  | lifted {steps : List Slot} (operates : resolver.Operates hooks id kind (.lifted steps))
  | chained {entry : HookEntry} {base : TypeId} (operates : resolver.Operates hooks id kind (.overridden entry))
      (after : BaseAfter hooks resolver id kind (some base))

/-- The plan for values inside the plans of the active types.  A type is opened once at most,
and a call of its lifted operation stands where it is met again. -/
inductive Plans (hooks : Registry) (kind : OpKind) (resolver : Resolver) :
    (active : List TypeId) → List Branch → List CallNode → Prop where
  | done {active : List TypeId} : Plans hooks kind resolver active [] []
  | again {active : List TypeId} {branch : Branch} {rest : List Branch} {nodes : List CallNode}
      (kept : (resolver.operations.lookup (branch.type, kind)).isSome = true)
      (recurs : Recurs hooks kind resolver branch.type) (isOpen : branch.type ∈ active)
      (others : Plans hooks kind resolver active rest nodes) :
      Plans hooks kind resolver active (branch :: rest)
        (branch.wrap [.lifted branch.place branch.type kind] ++ nodes)
  | opened {active : List TypeId} {branch : Branch} {rest inner : List Branch} {hookCalls : List HookCall}
      {innerNodes nodes : List CallNode}
      (kept : (resolver.operations.lookup (branch.type, kind)).isSome = true)
      (level : Level hooks kind resolver branch.type branch.place hookCalls inner)
      (new : Recurs hooks kind resolver branch.type → branch.type ∉ active)
      (insides : Plans hooks kind resolver (branch.type :: active) inner innerNodes)
      (others : Plans hooks kind resolver active rest nodes) :
      Plans hooks kind resolver active (branch :: rest)
        (branch.wrap (hookCalls.map .hook ++ innerNodes) ++ nodes)

section Planning

variable {hooks : Registry} {kind : OpKind} {resolver final later : Resolver} {id : TypeId} {place : String}
  {active : List TypeId}

theorem Plans.append {branches others : List Branch} {nodes otherNodes : List CallNode}
    (plans : Plans hooks kind resolver active branches nodes)
    (behind : Plans hooks kind resolver active others otherNodes) :
    Plans hooks kind resolver active (branches ++ others) (nodes ++ otherNodes) := by
  induction plans with
  | done => exact behind
  | again kept recurs isOpen _ ih =>
      rw [List.append_assoc]
      exact .again kept recurs isOpen (ih behind)
  | opened kept level new insides _ _ ih =>
      rw [List.append_assoc]
      exact .opened kept level new insides (ih behind)

theorem Plans.flatten {Item : Type} {items : List Item} {branches : Item → List Branch}
    {parts : List (List CallNode)}
    (plans : List.Forall₂ (fun item part => Plans hooks kind resolver active (branches item) part) items parts) :
    Plans hooks kind resolver active (items.flatMap branches) parts.flatten := by
  induction plans with
  | nil => exact .done
  | cons first _ ih =>
      rw [List.flatMap_cons, List.flatten_cons]
      exact first.append ih

/-- A value whose operation does nothing, and one of a type that is opened. -/
theorem Plans.of_level {hookCalls : List HookCall} {inner : List Branch} {innerNodes : List CallNode}
    (kept : (resolver.operations.lookup (id, kind)).isSome = true)
    (level : Level hooks kind resolver id place hookCalls inner)
    (new : Recurs hooks kind resolver id → id ∉ active)
    (insides : Plans hooks kind resolver (id :: active) inner innerNodes) :
    Plans hooks kind resolver active [{ type := id, place := place }] (hookCalls.map .hook ++ innerNodes) := by
  have plans : Plans hooks kind resolver active [{ type := id, place := place }] _ :=
    .opened kept level new insides .done
  simpa only [Branch.wrap, List.append_nil] using plans

theorem Plans.of_again (kept : (resolver.operations.lookup (id, kind)).isSome = true)
    (recurs : Recurs hooks kind resolver id) (isOpen : id ∈ active) :
    Plans hooks kind resolver active [{ type := id, place := place }] [.lifted place id kind] := by
  let branch : Branch := { type := id, place := place }
  have plans : Plans hooks kind resolver active [branch] _ := .again kept recurs isOpen .done
  exact plans

/-- What is planned for each element of a sequence is planned inside of a loop. -/
theorem Plans.loop {elementPlace sequence : String} {body : List CallNode}
    (plans : Plans hooks kind resolver active [{ type := id, place := elementPlace }] body) :
    Plans hooks kind resolver active [{ type := id, place := elementPlace, sequence? := some sequence }]
      (if body.isEmpty then [] else [.elements sequence id body]) := by
  let element : Branch := { type := id, place := elementPlace, sequence? := some sequence }
  cases plans with
  | again kept recurs isOpen others =>
      cases others
      have again : Plans hooks kind resolver active [element] _ := .again kept recurs isOpen .done
      simpa only [Branch.wrap, element, List.append_nil] using again
  | opened kept level new insides others =>
      cases others
      have opened : Plans hooks kind resolver active [element] _ := .opened kept level new insides .done
      simpa only [Branch.wrap, element, List.append_nil] using opened

theorem Operates.not_recurs (operates : resolver.Operates hooks id kind .builtIn) :
    ¬ Recurs hooks kind resolver id := by
  intro recurs
  cases recurs with
  | lifted otherwise => cases operates.unique otherwise
  | chained otherwise => cases operates.unique otherwise

theorem BaseAfter.not_recurs {entry : HookEntry} (after : BaseAfter hooks resolver id kind none)
    (operates : resolver.Operates hooks id kind (.overridden entry)) : ¬ Recurs hooks kind resolver id := by
  intro recurs
  cases recurs with
  | lifted otherwise => cases operates.unique otherwise
  | chained _ otherwise => cases after.unique otherwise

theorem convertedPlace_extends (id : TypeId) (place : String) :
    (convertedPlace id place).Preserves Extends :=
  (ask_leads _).bind fun _ => leads_pure _

theorem expandWithin_extends (fuel : Nat) (active : List TypeId) (id : TypeId) (place : String) :
    (expandWithin hooks kind fuel active id place).Preserves Extends :=
  expandWithin_leads (extends_leadsQueries hooks) kind fuel active id place

theorem expandSlot_extends {plan : TypeId → String → ResolveM (List CallNode)}
    (learns : ∀ part partPlace, (plan part partPlace).Preserves Extends) (place : String) (slot : Slot) :
    (expandSlot plan place slot).Preserves Extends := by
  unfold expandSlot
  split
  · exact (leads_mapM fun _ _ => learns _ _).bind fun _ => leads_pure _
  · exact (learns _ _).bind fun _ => leads_pure _
  · exact (slotPlace_leads slot place).bind fun _ => learns _ _

theorem expandSlot_alone {plan : TypeId → String → ResolveM (List CallNode)} {slot : Slot}
    (alone : ∀ count, slot.step ≠ .element count) :
    expandSlot plan place slot = (do plan slot.type (← slotPlace slot place)) := by
  unfold expandSlot
  cases isStep : slot.step with
  | element count => exact absurd isStep (alone count)
  | _ => rfl

/-- The plan for one step consists of the plans for the values that it leads to. -/
theorem expandSlot_plans {plan : TypeId → String → ResolveM (List CallNode)} {slot : Slot}
    {nodes : List CallNode} (learns : ∀ part partPlace, (plan part partPlace).Preserves Extends)
    (plans : ∀ partPlace before after nodes, plan slot.type partPlace before = .ok nodes after →
      ∀ later : Resolver, after.Extends later →
        Plans hooks kind later active [{ type := slot.type, place := partPlace }] nodes)
    (run : expandSlot plan place slot resolver = .ok nodes final) (extends_ : final.Extends later) :
    Plans hooks kind later active (slot.branches later.table place) nodes := by
  by_cases element : ∃ count, slot.step = .element count
  · obtain ⟨count, isStep⟩ := element
    unfold expandSlot at run
    unfold Slot.branches
    rw [isStep] at run ⊢
    cases count with
    | none =>
        obtain ⟨body, middle, planned, rest⟩ := bind_eq_ok.mp run
        obtain ⟨rfl, rfl⟩ := EStateM.Result.ok.inj rest
        exact (plans _ _ _ body planned later extends_).loop
    | some count =>
        obtain ⟨parts, middle, each, rest⟩ := bind_eq_ok.mp run
        obtain ⟨rfl, rfl⟩ := EStateM.Result.ok.inj rest
        have told : List.Forall₂ (fun (index : Nat) nodes => ∀ later : Resolver, middle.Extends later →
            Plans hooks kind later active [{ type := slot.type, place := s!"{place}[{index}]" }]
              nodes) (List.range count.toNat) parts :=
          mapM_tells (fun state (index : Nat) nodes => ∀ later : Resolver, state.Extends later →
              Plans hooks kind later active [{ type := slot.type, place := s!"{place}[{index}]" }]
                nodes)
            (fun index => learns _ _) (fun index before after nodes run => plans _ before after nodes run)
            (fun index nodes before after planned onwards later behind => planned later (onwards.trans behind)) each
        dsimp only
        rw [List.map_eq_flatMap]
        exact .flatten (told.imp fun index nodes planned => planned later extends_)
  · have alone : ∀ count, slot.step ≠ .element count := fun count isStep => element ⟨count, isStep⟩
    rw [expandSlot_alone alone] at run
    obtain ⟨part, middle, asked, planned⟩ := bind_eq_ok.mp run
    have placed : (slotPlace slot place).Preserves Extends := slotPlace_leads slot place
    have onwards := (placed.of_ok asked).trans (((learns slot.type part).of_ok planned).trans extends_)
    obtain ⟨rfl, sameBranches⟩ := branches_of_slotPlace alone asked onwards
    rw [sameBranches]
    exact plans part _ _ nodes planned later extends_

/-- Whatever plan is given follows the plain recursion. -/
theorem expandWithin_plans {fuel : Nat} {nodes : List CallNode}
    (run : expandWithin hooks kind fuel active id place resolver = .ok nodes final) (extends_ : final.Extends later) :
    Plans hooks kind later active [{ type := id, place := place }] nodes := by
  induction fuel generalizing active id place resolver final later nodes with
  | zero => cases run
  | succ fuel ih =>
      rw [expandWithin_succ] at run
      obtain ⟨operation, middle, resolved, rest⟩ := bind_eq_ok.mp run
      have operates (onwards : middle.Extends later) := operates_of_run resolved onwards
      cases isOutcome : operation.outcome with
      | builtIn =>
          rw [isOutcome] at rest operates
          obtain ⟨rfl, rfl⟩ := EStateM.Result.ok.inj rest
          obtain ⟨kept, isBuiltIn⟩ := operates extends_
          exact .of_level (by rw [kept]; rfl) (.builtIn isBuiltIn) (absurd · isBuiltIn.not_recurs) .done
      | overridden entry =>
          rw [isOutcome] at rest operates
          obtain ⟨base?, last, based, rest⟩ := bind_eq_ok.mp rest
          have learned : middle.Extends last := (destroyedBase?_leads (extends_leadsQueries hooks) fuel id kind).of_ok based
          cases base? with
          | none =>
              obtain ⟨rfl, rfl⟩ := EStateM.Result.ok.inj rest
              obtain ⟨kept, overrides⟩ := operates (learned.trans extends_)
              have after : BaseAfter hooks later id kind none := baseAfter_of_run based extends_
              have planned : Plans hooks kind later active [{ type := id, place := place }] _ :=
                .of_level (by rw [kept]; rfl) (.overridden overrides after)
                  (absurd · (after.not_recurs overrides)) .done
              simpa using planned
          | some base =>
              by_cases isOpen : id ∈ active
              · simp only [if_pos isOpen] at rest
                obtain ⟨rfl, rfl⟩ := EStateM.Result.ok.inj rest
                obtain ⟨kept, overrides⟩ := operates (learned.trans extends_)
                have after : BaseAfter hooks later id kind (some base) := baseAfter_of_run based extends_
                have again : Plans hooks kind later active [{ type := id, place := place }] _ :=
                  .of_again (by rw [kept]; rfl) (.chained overrides after) isOpen
                simpa using again
              · simp only [if_neg isOpen] at rest
                obtain ⟨basePlace, before, converted, rest⟩ := bind_eq_ok.mp rest
                obtain ⟨below, after, planned, rest⟩ := bind_eq_ok.mp rest
                obtain ⟨rfl, rfl⟩ := EStateM.Result.ok.inj rest
                have onwards : before.Extends later := ((expandWithin_extends fuel _ _ _).of_ok planned).trans extends_
                have passed := (convertedPlace_extends base place).of_ok converted
                obtain ⟨rfl, rfl⟩ := convertedPlace_eq converted (passed.trans onwards)
                obtain ⟨kept, overrides⟩ := operates (learned.trans onwards)
                have after : BaseAfter hooks later id kind (some base) := baseAfter_of_run based onwards
                have opened : Plans hooks kind later active [{ type := id, place := place }] _ :=
                  .of_level (by rw [kept]; rfl) (.overridden overrides after) (fun _ => isOpen)
                    (ih planned extends_)
                simpa using opened
      | lifted steps =>
          rw [isOutcome] at rest operates
          by_cases isOpen : id ∈ active
          · simp only [if_pos isOpen] at rest
            obtain ⟨rfl, rfl⟩ := EStateM.Result.ok.inj rest
            obtain ⟨kept, lifts⟩ := operates extends_
            have again : Plans hooks kind later active [{ type := id, place := place }] _ :=
              .of_again (by rw [kept]; rfl) (.lifted lifts) isOpen
            simpa using again
          · simp only [if_neg isOpen] at rest
            obtain ⟨parts, after, each, rest⟩ := bind_eq_ok.mp rest
            obtain ⟨rfl, rfl⟩ := EStateM.Result.ok.inj rest
            have learns (slot : Slot) : Preserves Extends
                (expandSlot (expandWithin hooks kind fuel (id :: active)) place slot) :=
              expandSlot_extends (expandWithin_extends fuel (id :: active)) place slot
            have learned : middle.Extends after := (leads_mapM fun slot _ => learns slot).of_ok each
            let follows (state : Resolver) (slot : Slot) (nodes : List CallNode) : Prop :=
              ∀ later : Resolver, state.Extends later →
                Plans hooks kind later (id :: active) (slot.branches later.table place) nodes
            have told : List.Forall₂ (follows after) steps parts :=
              mapM_tells follows learns
                (fun slot before last nodes run later behind => expandSlot_plans
                  (expandWithin_extends fuel (id :: active))
                  (fun partPlace first second nodes run later behind => ih run behind) run behind)
                (fun slot nodes before last planned onwards later behind => planned later (onwards.trans behind))
                each
            obtain ⟨kept, lifts⟩ := operates (learned.trans extends_)
            exact .of_level (by rw [kept]; rfl) (.lifted lifts) (fun _ => isOpen)
              (.flatten (told.imp fun slot nodes planned => planned later extends_))

end Planning
end Resolver
end LifecycleHooks

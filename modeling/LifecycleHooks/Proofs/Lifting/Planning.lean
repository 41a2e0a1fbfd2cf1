import LifecycleHooks.Proofs.Lifting.Answering

/-!
# Plans about finitely many types are finished

A type is open at most once inside its own plan, so a plan whose types lie in a finite set
is not deeper than the set is large.  Hence every query about types from which only
finitely many types can be reached is answered.
-/

namespace LifecycleHooks

open Attempt ResolveM Resolver TypeTable

namespace Resolver

variable {hooks : Registry} {trees : Set TypeTree} {ground : Resolver → Set TypeTree} {resolver : Resolver}
  {ids : List TypeId}

/-- A fenced resolver that is ready for queries about some types of its ground. -/
structure Grounded (hooks : Registry) (trees : Set TypeTree) (ground : Resolver → Set TypeTree) (ids : List TypeId)
    (resolver : Resolver) : Prop where
  fenced : resolver.Fenced trees ground
  ready : resolver.Ready hooks
  inside : ∀ id ∈ ids, resolver.table.Within (ground resolver) id

/-- Whatever is asked next, the resolver stays on its ground. -/
theorem grounded_leadsQueries (hooks : Registry) (trees : Set TypeTree) (ground : Resolver → Set TypeTree)
    (ids : List TypeId) :
    LeadsQueries hooks (Lasts (Grounded hooks trees ground ids)) (Lasts (Grounded hooks trees ground ids)) := by
  apply (fenced_leadsQueries hooks trees ground).both (ready_leadsQueries hooks)
  intro resolver later stays readies grounded
  obtain ⟨fenced, _, keeps⟩ := stays grounded.fenced
  exact ⟨fenced, readies grounded.ready, fun id member => keeps id (grounded.inside id member)⟩

theorem Grounded.with_types {more : List TypeId} (grounded : resolver.Grounded hooks trees ground ids)
    (inside : ∀ id ∈ more, resolver.table.Within (ground resolver) id) :
    resolver.Grounded hooks trees ground (more ++ ids) :=
  ⟨grounded.fenced, grounded.ready, fun id member =>
    (List.mem_append.mp member).elim (inside id) (grounded.inside id)⟩

theorem Grounded.subset {fewer : List TypeId} (grounded : resolver.Grounded hooks trees ground ids)
    (inside : fewer ⊆ ids) : resolver.Grounded hooks trees ground fewer :=
  ⟨grounded.fenced, grounded.ready, fun id member => grounded.inside id (inside member)⟩

/-- The types lie among finitely many, so there are not more of them. -/
theorem Grounded.length_le (grounded : resolver.Grounded hooks trees ground ids) (finite : trees.Finite)
    (distinct : ids.Nodup) : ids.length ≤ trees.ncard :=
  grounded.fenced.intact.regular.length_le_ncard finite distinct fun id member =>
    ⟨(grounded.inside id member).1, grounded.fenced.among (grounded.inside id member).2⟩

/-- A resolver that is confined to a set and ready for queries about some types of it. -/
structure Prepared (hooks : Registry) (trees : Set TypeTree) (ids : List TypeId) (resolver : Resolver) :
    Prop where
  confined : resolver.Confined trees
  ready : resolver.Ready hooks
  within : ∀ id ∈ ids, resolver.table.Within trees id

/-- A resolver is prepared when the set is its ground, whatever it learns. -/
theorem prepared_iff : resolver.Prepared hooks trees ids ↔ resolver.Grounded hooks trees (fun _ => trees) ids :=
  ⟨fun prepared => ⟨confined_iff.mp prepared.confined, prepared.ready, prepared.within⟩,
    fun grounded => ⟨confined_iff.mpr grounded.fenced, grounded.ready, grounded.inside⟩⟩

/-- Whatever is asked next, the resolver stays prepared. -/
theorem prepared_leadsQueries (hooks : Registry) (trees : Set TypeTree) (ids : List TypeId) :
    LeadsQueries hooks (Lasts (Prepared hooks trees ids)) (Lasts (Prepared hooks trees ids)) := by
  have same : Prepared hooks trees ids = Grounded hooks trees (fun _ => trees) ids :=
    funext fun _ => propext prepared_iff
  rw [same]
  exact grounded_leadsQueries hooks trees _ ids

theorem Prepared.with_types {more : List TypeId} (prepared : resolver.Prepared hooks trees ids)
    (within : ∀ id ∈ more, resolver.table.Within trees id) : resolver.Prepared hooks trees (more ++ ids) :=
  prepared_iff.mpr ((prepared_iff.mp prepared).with_types within)

theorem Prepared.subset {fewer : List TypeId} (prepared : resolver.Prepared hooks trees ids)
    (inside : fewer ⊆ ids) : resolver.Prepared hooks trees fewer :=
  prepared_iff.mpr ((prepared_iff.mp prepared).subset inside)

end Resolver

namespace ResolveM

variable {hooks : Registry} {kind : OpKind} {trees : Set TypeTree} {ground : Resolver → Set TypeTree}
  {resolver : Resolver} {id : TypeId} {ids : List TypeId}

/-- What settles leaves that standing which every query does. -/
theorem settles_lasting {Result : Type} {action : Nat → ResolveM Result} {property : Resolver → Prop}
    (holds : property resolver) (leads : ∀ fuel, (action fuel).Preserves (Lasts property))
    (settles : Settles (fun _ _ => True) action resolver) : Settles (fun _ => property) action resolver :=
  settles.mono fun _ _ fuel run _ => (leads fuel).of_ok run holds

theorem settles_prepared {Result : Type} {action : Nat → ResolveM Result}
    (prepared : resolver.Prepared hooks trees ids)
    (leads : ∀ fuel, (action fuel).Preserves (Lasts (Prepared hooks trees ids)))
    (settles : Settles (fun _ _ => True) action resolver) :
    Settles (fun _ later => later.Prepared hooks trees ids) action resolver :=
  settles_lasting prepared leads settles

/-- The part of a call plan for one step of a lifted operation. -/
def expandSlot (plan : TypeId → String → ResolveM (List CallNode)) (place : String) (slot : Slot) :
    ResolveM (List CallNode) :=
  match slot.step with
  | .element (some count) => do
      let plans ← (List.range count.toNat).mapM fun index => plan slot.type s!"{place}[{index}]"
      return plans.flatten
  | .element none => do
      let body ← plan slot.type s!"{place}[i]"
      return if body.isEmpty then [] else [.elements place slot.type body]
  | _ => do plan slot.type (← slotPlace slot place)

theorem expandWithin_succ (fuel : Nat) (active : List TypeId) (id : TypeId) (place : String) :
    expandWithin hooks kind (fuel + 1) active id place = do
      match (← resolve hooks fuel id kind).outcome with
      | .builtIn => return []
      | .overridden entry => do
          match ← destroyedBase? hooks fuel id kind with
          | none => return [.hook ⟨place, id, entry⟩]
          | some base =>
              if id ∈ active then
                return [.lifted place id kind]
              else do
                let basePlace ← convertedPlace base place
                return .hook ⟨place, id, entry⟩ ::
                  (← expandWithin hooks kind fuel (id :: active) base basePlace)
      | .lifted steps =>
          if id ∈ active then
            return [.lifted place id kind]
          else do
            let parts ← steps.mapM (expandSlot (expandWithin hooks kind fuel (id :: active)) place)
            return parts.flatten :=
  rfl

/-- The part of a copy plan for one constituent. -/
def copySlot (plan : TypeId → String → ResolveM (List CopyNode)) (place : String) (slot : Slot) :
    ResolveM (List CopyNode) :=
  match slot.step with
  | .element count => do
      let plans ← (List.range (count.getD 0).toNat).mapM fun index => plan slot.type s!"{place}[{index}]"
      return plans.flatten
  | .pointee => return []
  | _ => do plan slot.type (← slotPlace slot place)

/-- The copy plan for what a value of a type is made from. -/
def copyInside (plan : TypeId → String → ResolveM (List CopyNode)) (id : TypeId) (place : String) :
    TypeDef → ResolveM (List CopyNode)
  | .wrap .ref inner | .wrap .ptr inner => do
      let children ← plan inner s!"{place}[]"
      return [.clone place id children]
  | .wrap .seq element => do
      let children ← plan element s!"{place}[i]"
      return [.clone place id children]
  | _ => do
      let slots ← onTable (TableM.constituents id)
      let parts ← slots.mapM (copySlot plan place)
      return parts.flatten

theorem copyWithin_succ (fuel : Nat) (active : List TypeId) (id : TypeId) (place : String) :
    copyWithin hooks (fuel + 1) active id place = (do
      if ← isUnresolvable fuel id then
        return []
      else
        match (← resolve hooks fuel id .deepCopy).outcome with
        | .overridden entry => return [.hook ⟨place, id, entry⟩]
        | .lifted _ | .builtIn => do
            let type ← fetch id
            if id ∈ active then
              if type.isSharedStorage || (← ownsStorage fuel id) then
                return [.recursive place id]
              else
                return []
            else
              copyInside (copyWithin hooks fuel (id :: active)) id place type) := by
  rw [copyWithin]
  refine bind_congr fun unresolvable => ?_
  cases unresolvable with
  | true => rfl
  | false =>
      refine bind_congr fun operation => ?_
      cases operation.outcome with
      | overridden entry => rfl
      | _ =>
          refine bind_congr fun type => ?_
          refine if_congr Iff.rfl rfl ?_
          cases type with
          | wrap wrapper inner => cases wrapper <;> rfl
          | _ => rfl

section Places

theorem convertedPlace_answers (intact : resolver.Intact) (has : resolver.table.Has id) (place : String) :
    ∃ converted, convertedPlace id place resolver = .ok converted resolver := by
  obtain ⟨name, spelled⟩ := spell_answers intact.regular.toWellFormed intact.regular.paramsKnown has
  refine ⟨s!"{name}({place})", ?_⟩
  unfold convertedPlace
  rw [bind_run_of_ok (ask_eq_ok.mpr ⟨spelled, rfl⟩)]
  rfl

theorem slotPlace_answers {slot : Slot} (intact : resolver.Intact) (has : resolver.table.Has slot.type)
    (place : String) : ∃ part, slotPlace slot place resolver = .ok part resolver := by
  unfold slotPlace
  cases slot.step with
  | field name => exact ⟨_, rfl⟩
  | tupleElement index => exact ⟨_, rfl⟩
  | pointee => exact ⟨_, rfl⟩
  | base => exact convertedPlace_answers intact has place
  | underlying => exact convertedPlace_answers intact has place
  | element count => exact convertedPlace_answers intact has place

end Places

section Expanding

/-- The slots of a body lie where the spelling of the type says. -/
theorem body_within_settles (intact : resolver.Intact) (has : resolver.table.Has id)
    (closed : ∀ part ∈ resolver.table.constituentTrees (resolver.table.tree id), part ∈ trees) :
    Settles (fun body later => ∀ slot ∈ body.slots, later.table.Within trees slot.type)
      (fun _ => onTable (TableM.body id)) resolver := by
  have wellFormed := intact.regular.toWellFormed
  obtain ⟨type, found⟩ := has.exists
  by_cases hasBody : (∃ object, type = .object object) ∨ ∃ head args, type = .applied head args
  · obtain ⟨body, larger, run, _, _, holds⟩ := TableM.body_works wellFormed found hasBody
    refine settles_of_ok (fun _ => onTable_eq_ok.mpr ⟨larger, run, rfl⟩) fun slot member => ?_
    refine ⟨holds.2 slot member, closed _ ?_⟩
    rw [← holds.1]
    exact List.mem_map_of_mem member
  · have none : TableM.body id resolver.table = .ok {} resolver.table := by
      unfold TableM.body
      rw [bind_run_of_ok (TableM.fetch_run found)]
      cases type with
      | object object => exact absurd (.inl ⟨object, rfl⟩) hasBody
      | applied head args => exact absurd (.inr ⟨head, args, rfl⟩) hasBody
      | _ => rfl
    exact settles_of_ok (fun _ => onTable_eq_ok.mpr ⟨_, none, rfl⟩) (by simp [Body.slots])

theorem body_settles (confined : resolver.Confined trees) (within : resolver.table.Within trees id)
    (spared : resolver.Spared id) :
    Settles (fun body later => ∀ slot ∈ body.slots, later.table.Within trees slot.type)
      (fun _ => onTable (TableM.body id)) resolver :=
  body_within_settles confined.intact within.1 (confined.closed spared within)

theorem destroyedBase?_settles (frozen : hooks.frozen = true) (finite : trees.Finite)
    (grounded : resolver.Grounded hooks trees ground [id]) (judged : resolver.Judged id false) :
    Settles (fun base? later => ∀ base, base? = some base → later.table.Within (ground later) base)
      (fun fuel => destroyedBase? hooks fuel id kind) resolver := by
  have leads := fenced_leadsQueries hooks trees ground
  have inside := grounded.inside id (by simp)
  unfold destroyedBase?
  cases kind with
  | destroy =>
      apply (body_within_settles grounded.fenced.intact inside.1 (grounded.fenced.closed judged inside)).bind
      intro body middle fuel run slotsWithin
      obtain ⟨middleFenced, wider, _⟩ := (leads.bodies id).of_ok run grounded.fenced
      cases isBase : body.base with
      | none => exact settles_pure (by simp)
      | some base =>
          obtain ⟨has, member⟩ := slotsWithin ⟨.base, base⟩ (by simp [Body.slots, isBase])
          have baseInside : middle.table.Within (ground middle) base := ⟨has, wider member⟩
          apply (fenced_resolve_settles frozen finite middleFenced baseInside).bind
          intro operation later fuel resolved _
          obtain ⟨_, _, laterKeeps⟩ := (leads.resolves fuel base .destroy).of_ok resolved middleFenced
          cases operation.isBuiltIn with
          | true => exact settles_pure (by simp)
          | false =>
              refine settles_pure fun other isOther => ?_
              obtain rfl := Option.some.inj isOther
              exact laterKeeps base baseInside
  | _ => exact settles_pure (by simp)

/-- The steps of a lifted operation on a type of the ground lead to types of the ground. -/
theorem steps_inside {fuel : Nat} {final : Resolver} {operation : Operation} {steps : List Slot}
    (grounded : resolver.Grounded hooks trees ground [id])
    (run : resolve hooks fuel id kind resolver = .ok operation final)
    (lifted : operation.outcome = .lifted steps) :
    ∀ slot ∈ steps, final.table.Within (ground final) slot.type := by
  have later := ((grounded_leadsQueries hooks trees ground [id]).resolves fuel id kind).of_ok run grounded
  obtain ⟨_, _, _, explained⟩ := resolve_explained grounded.ready run
  rw [lifted] at explained
  cases explained with
  | @lifted slots takesPart clear unbound parts path chosen leftOut =>
      have settles : Settles (fun slots later => ∀ slot ∈ slots, later.table.Within (ground later) slot.type)
          (fun _ => relevantSlots id kind) final :=
        fenced_relevantSlots_settles later.fenced (later.inside id (by simp)) clear.judged
      obtain ⟨others, last, inside, answers⟩ := settles
      obtain ⟨_, same⟩ := answers.exists
      obtain ⟨rfl, rfl⟩ := EStateM.Result.ok.inj (same.symm.trans parts)
      exact fun slot member => inside slot (List.mem_filter.mp (mem_orderSteps.mp member)).1

theorem steps_within {fuel : Nat} {final : Resolver} {operation : Operation} {steps : List Slot}
    (prepared : resolver.Prepared hooks trees [id])
    (run : resolve hooks fuel id kind resolver = .ok operation final)
    (lifted : operation.outcome = .lifted steps) :
    ∀ slot ∈ steps, final.table.Within trees slot.type :=
  steps_inside (prepared_iff.mp prepared) run lifted

theorem expandSlot_settles {plan : Nat → TypeId → String → ResolveM (List CallNode)} {slot : Slot} {place : String}
    (grounded : resolver.Grounded hooks trees ground ids) (isPart : slot.type ∈ ids)
    (plans : ∀ partPlace state, state.Grounded hooks trees ground ids →
      Settles (fun _ later => later.Grounded hooks trees ground ids) (fun fuel => plan fuel slot.type partPlace) state) :
    Settles (fun _ later => later.Grounded hooks trees ground ids)
      (fun fuel => expandSlot (plan fuel) place slot) resolver := by
  unfold expandSlot
  split
  · rename_i count _
    have each : Settles (fun _ later => later.Grounded hooks trees ground ids)
        (fun fuel => (List.range count.toNat).mapM fun (index : Nat) => plan fuel slot.type s!"{place}[{index}]") resolver :=
      settles_mapM (fun index _ state holds => plans _ state holds) grounded
    exact each.bind fun _ _ _ _ after => settles_pure after
  · exact (plans _ resolver grounded).bind fun _ _ _ _ after => settles_pure after
  · obtain ⟨partPlace, answered⟩ :=
      slotPlace_answers grounded.fenced.intact (grounded.inside _ isPart).1 place
    exact Settles.after answered (plans partPlace resolver grounded)

/-- A plan comes to its end: each type is opened at most once inside its own plan. -/
theorem grounded_expandWithin_settles {active : List TypeId} (frozen : hooks.frozen = true) (finite : trees.Finite)
    (grounded : resolver.Grounded hooks trees ground (id :: active)) (distinct : active.Nodup) (place : String) :
    Settles (fun _ _ => True) (fun fuel => expandWithin hooks kind fuel active id place) resolver := by
  obtain ⟨left, enough⟩ : ∃ left, trees.ncard ≤ active.length + left := ⟨_, Nat.le_add_left _ _⟩
  induction left using Nat.strong_induction_on generalizing resolver id active place with
  | h left ih =>
      have leads {ids : List TypeId} := grounded_leadsQueries hooks trees ground ids
      -- What is planned inside the plan of the type settles, since there is room for it.
      have inside (new : id ∉ active) {ids : List TypeId} (opened : id :: active ⊆ ids) {state : Resolver}
          {part : TypeId} (member : part ∈ ids) (partPlace : String) (holds : state.Grounded hooks trees ground ids) :
          Settles (fun _ later => later.Grounded hooks trees ground ids)
            (fun fuel => expandWithin hooks kind fuel (id :: active) part partPlace) state := by
        have nowDistinct := List.nodup_cons.mpr ⟨new, distinct⟩
        have room := (holds.subset opened).length_le finite nowDistinct
        rw [List.length_cons] at room
        apply settles_lasting holds fun fuel => expandWithin_leads leads kind fuel (id :: active) part partPlace
        apply ih (left - 1) (by omega) (holds.subset (List.cons_subset.mpr ⟨member, opened⟩)) nowDistinct
        rw [List.length_cons]
        omega
      apply Settles.of_succ
      simp only [expandWithin_succ]
      apply (fenced_resolve_settles frozen finite grounded.fenced (grounded.inside id (by simp))).bind
      intro operation middle fuel resolved _
      have middleGrounded := (leads.resolves fuel id kind).of_ok resolved grounded
      cases isOutcome : operation.outcome with
      | builtIn => exact settles_pure trivial
      | overridden entry =>
          have judged : middle.Judged id false := by
            obtain ⟨_, _, _, explained⟩ := resolve_explained grounded.ready resolved
            rw [isOutcome] at explained
            cases explained with
            | overridden clear => exact clear.judged
          apply (destroyedBase?_settles frozen finite (middleGrounded.subset (by simp)) judged).bind
          intro base? later fuel based isBase
          have laterGrounded := (destroyedBase?_leads leads fuel id kind).of_ok based middleGrounded
          cases base? with
          | none => exact settles_pure trivial
          | some base =>
              by_cases new : id ∈ active
              · simp only [if_pos new]
                exact settles_pure trivial
              · simp only [if_neg new]
                have baseInside := isBase base rfl
                obtain ⟨basePlace, converted⟩ :=
                  convertedPlace_answers laterGrounded.fenced.intact baseInside.1 place
                refine Settles.after converted ?_
                have holds : later.Grounded hooks trees ground (base :: id :: active) :=
                  laterGrounded.with_types (List.forall_mem_singleton.mpr baseInside)
                have planned := inside new (List.subset_cons_self base _) List.mem_cons_self basePlace holds
                exact planned.bind fun _ _ _ _ _ => settles_pure trivial
      | lifted steps =>
          have stepsInside := steps_inside (grounded.subset (by simp)) resolved isOutcome
          by_cases new : id ∈ active
          · simp only [if_pos new]
            exact settles_pure trivial
          · simp only [if_neg new]
            let ids := steps.map Slot.type ++ id :: active
            have holds : middle.Grounded hooks trees ground ids := by
              refine middleGrounded.with_types fun other member => ?_
              obtain ⟨slot, isSlot, rfl⟩ := List.mem_map.mp member
              exact stepsInside slot isSlot
            have planned : Settles (fun _ later => later.Grounded hooks trees ground ids)
                (fun fuel => steps.mapM (expandSlot (expandWithin hooks kind fuel (id :: active)) place))
                middle := by
              refine settles_mapM (fun slot member state grounded => ?_) holds
              have isPart : slot.type ∈ ids := List.mem_append_left _ (List.mem_map_of_mem member)
              exact expandSlot_settles grounded isPart fun partPlace state =>
                inside new (List.subset_append_right _ _) isPart partPlace
            exact planned.bind fun _ _ _ _ _ => settles_pure trivial

theorem expandWithin_settles {active : List TypeId} (frozen : hooks.frozen = true) (finite : trees.Finite)
    (prepared : resolver.Prepared hooks trees (id :: active)) (distinct : active.Nodup) (place : String) :
    Settles (fun _ _ => True) (fun fuel => expandWithin hooks kind fuel active id place) resolver :=
  grounded_expandWithin_settles frozen finite (prepared_iff.mp prepared) distinct place

end Expanding

section Copying

theorem operand_inside {wrapper : Wrapper} {inner : TypeId} (fenced : resolver.Fenced trees ground)
    (inside : resolver.table.Within (ground resolver) id)
    (found : resolver.table.get? id = some (.wrap wrapper inner)) :
    resolver.table.Within (ground resolver) inner := by
  have wellFormed := fenced.intact.regular.toWellFormed
  have isWrapped := wellFormed.tree_eq found
  have headless : resolver.table.head? id = .ok none := by
    rw [TypeTable.head?, get_eq_ok.mpr found]
    rfl
  refine ⟨(wellFormed.earlier id _ found inner (by simp [TypeDef.parts])).1,
    fenced.closed (.headless headless) inside _ ?_⟩
  rw [isWrapped]
  simp [TypeDef.label, TypeDef.operands, constituentTrees]

theorem copySlot_settles {plan : Nat → TypeId → String → ResolveM (List CopyNode)} {slot : Slot} {place : String}
    (grounded : resolver.Grounded hooks trees ground ids) (isPart : slot.type ∈ ids)
    (plans : ∀ partPlace state, state.Grounded hooks trees ground ids →
      Settles (fun _ later => later.Grounded hooks trees ground ids) (fun fuel => plan fuel slot.type partPlace) state) :
    Settles (fun _ later => later.Grounded hooks trees ground ids)
      (fun fuel => copySlot (plan fuel) place slot) resolver := by
  unfold copySlot
  split
  · rename_i count _
    have each : Settles (fun _ later => later.Grounded hooks trees ground ids)
        (fun fuel => (List.range (count.getD 0).toNat).mapM fun (index : Nat) =>
          plan fuel slot.type s!"{place}[{index}]") resolver :=
      settles_mapM (fun index _ state holds => plans _ state holds) grounded
    exact each.bind fun _ _ _ _ after => settles_pure after
  · exact settles_pure grounded
  · obtain ⟨partPlace, answered⟩ :=
      slotPlace_answers grounded.fenced.intact (grounded.inside _ isPart).1 place
    exact Settles.after answered (plans partPlace resolver grounded)

/-- What is inside a value is copied when the types found there are. -/
theorem copyInside_settles {plan : Nat → TypeId → String → ResolveM (List CopyNode)} {type : TypeDef}
    {place : String} (grounded : resolver.Grounded hooks trees ground ids) (isType : id ∈ ids)
    (found : resolver.table.get? id = some type) (judged : resolver.Judged id false)
    (plans : ∀ more part partPlace state, ids ⊆ more → part ∈ more → state.Grounded hooks trees ground more →
      Settles (fun _ later => later.Grounded hooks trees ground more) (fun fuel => plan fuel part partPlace) state) :
    Settles (fun _ _ => True) (fun fuel => copyInside (plan fuel) id place type) resolver := by
  have inside := grounded.inside id isType
  unfold copyInside
  split
  case h_4 =>
    apply (fenced_constituents_settles grounded.fenced inside judged).bind
    intro slots middle _ run slotsInside
    have leads := grounded_leadsQueries hooks trees ground ids
    have later := (leads.constituents id).of_ok run grounded
    let more := slots.map Slot.type ++ ids
    have holds : middle.Grounded hooks trees ground more := by
      refine later.with_types fun other member => ?_
      obtain ⟨slot, isSlot, rfl⟩ := List.mem_map.mp member
      exact slotsInside slot isSlot
    have planned : Settles (fun _ later => later.Grounded hooks trees ground more)
        (fun fuel => slots.mapM (copySlot (plan fuel) place)) middle := by
      refine settles_mapM (fun slot member state grounded => ?_) holds
      have isPart : slot.type ∈ more := List.mem_append_left _ (List.mem_map_of_mem member)
      exact copySlot_settles grounded isPart fun partPlace state =>
        plans more slot.type partPlace state (List.subset_append_right _ _) isPart
    exact planned.bind fun _ _ _ _ _ => settles_pure trivial
  all_goals
    rename_i inner
    have holds := grounded.with_types
      (List.forall_mem_singleton.mpr (operand_inside grounded.fenced inside found))
    apply Settles.bind (plans _ inner _ resolver (List.subset_append_right _ _) (by simp) holds)
    exact fun _ _ _ _ _ => settles_pure trivial

/-- A copy plan comes to its end, like a call plan. -/
theorem grounded_copyWithin_settles {active : List TypeId} (frozen : hooks.frozen = true) (finite : trees.Finite)
    (grounded : resolver.Grounded hooks trees ground (id :: active)) (distinct : active.Nodup) (place : String) :
    Settles (fun _ _ => True) (fun fuel => copyWithin hooks fuel active id place) resolver := by
  obtain ⟨left, enough⟩ : ∃ left, trees.ncard ≤ active.length + left := ⟨_, Nat.le_add_left _ _⟩
  induction left using Nat.strong_induction_on generalizing resolver id active place with
  | h left ih =>
      have leads {ids : List TypeId} := grounded_leadsQueries hooks trees ground ids
      apply Settles.of_succ
      simp only [copyWithin_succ]
      apply (fenced_isUnresolvable_settles finite grounded.fenced (grounded.inside id (by simp))).bind
      intro unresolvable middle fuel run _
      have middleGrounded := (leads.unresolvable fuel id).of_ok run grounded
      cases unresolvable with
      | true => exact settles_pure trivial
      | false =>
          apply (fenced_resolve_settles frozen finite middleGrounded.fenced (middleGrounded.inside id (by simp))).bind
          intro operation later fuel resolved _
          have laterGrounded := (leads.resolves fuel id .deepCopy).of_ok resolved middleGrounded
          obtain ⟨type, found⟩ := (laterGrounded.inside id (by simp)).1.exists
          have fetched : fetch id later = .ok type later := fetch_eq_ok.mpr ⟨get_eq_ok.mpr found, rfl⟩
          have rest : Settles (fun _ _ => True) (fun fuel => do
              let type ← fetch id
              if id ∈ active then
                if type.isSharedStorage || (← ownsStorage fuel id) then
                  return [CopyNode.recursive place id]
                else
                  return []
              else
                copyInside (copyWithin hooks fuel (id :: active)) id place type) later := by
            refine Settles.after fetched ?_
            by_cases new : id ∈ active
            · simp only [if_pos new]
              apply (fenced_ownsStorage_settles finite laterGrounded.fenced (laterGrounded.inside id (by simp))).bind
              intro owns _ _ _ _
              split <;> exact settles_pure trivial
            · simp only [if_neg new]
              have clear := (clear_of_answer run).extends_ middleGrounded.ready.idle
                ((resolve_extends hooks fuel id .deepCopy).of_ok resolved)
              apply copyInside_settles laterGrounded List.mem_cons_self found clear.judged
              intro more part partPlace state opened member holds
              have nowDistinct := List.nodup_cons.mpr ⟨new, distinct⟩
              have room := (holds.subset opened).length_le finite nowDistinct
              rw [List.length_cons] at room
              apply settles_lasting holds fun fuel => copyWithin_leads leads fuel (id :: active) part partPlace
              apply ih (left - 1) (by omega) (holds.subset (List.cons_subset.mpr ⟨member, opened⟩)) nowDistinct
              rw [List.length_cons]
              omega
          cases operation.outcome with
          | overridden entry => exact settles_pure trivial
          | lifted steps => exact rest
          | builtIn => exact rest

theorem copyWithin_settles {active : List TypeId} (frozen : hooks.frozen = true) (finite : trees.Finite)
    (prepared : resolver.Prepared hooks trees (id :: active)) (distinct : active.Nodup) (place : String) :
    Settles (fun _ _ => True) (fun fuel => copyWithin hooks fuel active id place) resolver :=
  grounded_copyWithin_settles frozen finite (prepared_iff.mp prepared) distinct place

end Copying

section Asking

/-- Every query is answered, if finitely many types enclose each type that it is about, whatever is
asked meanwhile. -/
theorem query_settles {query : Query} {kept : Resolver → Prop} (frozen : hooks.frozen = true)
    (leads : LeadsQueries hooks (Lasts kept) (Lasts kept))
    (grounds : ∀ state id, kept state → id ∈ query.subjects →
      ∃ trees ground, trees.Finite ∧ state.Grounded hooks trees ground [id])
    (holds : kept resolver) : Settles (fun _ => kept) (fun fuel => query.ask hooks fuel) resolver := by
  have resolves (id : TypeId) (kind : OpKind) (state : Resolver) (isSubject : id ∈ query.subjects)
      (holds : kept state) : Settles (fun _ => kept) (fun fuel => resolve hooks fuel id kind) state := by
    obtain ⟨trees, ground, finite, grounded⟩ := grounds state id holds isSubject
    apply settles_lasting holds fun fuel => leads.resolves fuel id kind
    exact fenced_resolve_settles frozen finite grounded.fenced (grounded.inside id (by simp))
  cases query with
  | isUnresolvable id =>
      obtain ⟨trees, ground, finite, grounded⟩ := grounds resolver id holds List.mem_cons_self
      have settles := settles_lasting holds (fun fuel => leads.unresolvable fuel id)
        (fenced_isUnresolvable_settles finite grounded.fenced (grounded.inside id (by simp)))
      exact settles.bind fun _ _ _ _ still => settles_pure still
  | resolve id kind =>
      exact (resolves id kind resolver List.mem_cons_self holds).bind fun _ _ _ _ still => settles_pure still
  | operationTable ids =>
      have rows : Settles (fun _ => kept) (fun fuel => operationTable hooks fuel ids) resolver := by
        refine settles_mapM (fun id member state holds => ?_) holds
        exact (settles_mapM (fun kind _ state holds => resolves id kind state member holds) holds).bind
          fun _ _ _ _ still => settles_pure still
      exact rows.bind fun _ _ _ _ still => settles_pure still
  | expand id kind place =>
      obtain ⟨trees, ground, finite, grounded⟩ := grounds resolver id holds List.mem_cons_self
      have settles := settles_lasting holds (fun fuel => expandWithin_leads leads kind fuel [] id place)
        (grounded_expandWithin_settles frozen finite grounded List.nodup_nil place)
      exact settles.bind fun _ _ _ _ still => settles_pure still
  | copyPlan id place =>
      obtain ⟨trees, ground, finite, grounded⟩ := grounds resolver id holds List.mem_cons_self
      have settles := settles_lasting holds (fun fuel => copyWithin_leads leads fuel [] id place)
        (grounded_copyWithin_settles frozen finite grounded List.nodup_nil place)
      exact settles.bind fun _ _ _ _ still => settles_pure still

end Asking
end ResolveM

namespace Resolver

/-- A spelling that does not belong to a generic object held to grow without end. -/
def Follows (resolver : Resolver) (tree : TypeTree) : Prop :=
  ∀ head, tree.head? = some head → ¬ resolver.Judged head true

theorem Judged.follows {resolver : Resolver} {id : TypeId} (judged : resolver.Judged id false)
    (wellFormed : resolver.table.WellFormed) : resolver.Follows (resolver.table.tree id) := by
  intro head isHead grows
  cases grows.unique (judged.of_head wellFormed isHead)

theorem Follows.earlier {resolver later : Resolver} {tree : TypeTree} (learns : resolver.Learns later)
    (follows : later.Follows tree) : resolver.Follows tree :=
  fun head isHead grows => follows head isHead (grows.learns learns)

/-- The spellings of the types that can be reached from a type through constituents.  A type
that is held to grow without end is reached, but not what it is made from. -/
def reach (resolver : Resolver) (id : TypeId) : Set TypeTree :=
  {tree | Relation.ReflTransGen
    (fun owner part => resolver.Follows owner ∧ part ∈ resolver.table.constituentTrees owner)
    (resolver.table.tree id) tree}

/-- A resolver at rest that has learned something since another one. -/
structure Since (resolver later : Resolver) : Prop where
  intact : later.Intact
  judging : later.judging = []
  unfolds : resolver.table.Unfolds later.table
  learns : resolver.Learns later

theorem Since.judges {resolver middle later : Resolver} (since : resolver.Since middle)
    (judges : middle.Judges later) : resolver.Since later := by
  obtain ⟨intact, unfolds⟩ := judges.staysIntact since.intact
  exact ⟨intact, judges.judging.trans since.judging, since.unfolds.trans unfolds,
    trans_of Learns since.learns judges.toLearns⟩

theorem remains_since (resolver : Resolver) : Remains resolver.Since where
  intact since := since.intact
  judging since := since.judging
  asks extends_ unrolls :=
    Preserves.mono (onTable_judges extends_ unrolls) (fun _ _ judges since => since.judges judges)
      fun _ _ judges since => since.judges judges
  grows fuel id :=
    (growsForever_judges fuel id).mono (fun _ _ judges since => since.judges judges)
      fun _ _ judges since => since.judges judges
  stands since intact table growth judging :=
    { intact := intact
      judging := judging.trans since.judging
      unfolds := table ▸ since.unfolds
      learns := ⟨table ▸ since.learns.table, growth ▸ since.learns.growth⟩ }

variable {hooks : Registry} {resolver : Resolver} {id : TypeId}

/-- A resolver at rest is confined to what a type reaches. -/
theorem confined_reach (intact : resolver.Intact) (judging : resolver.judging = []) (id : TypeId) :
    resolver.Confined (resolver.reach id) := by
  have now : resolver.Since resolver := ⟨intact, judging, .refl _, refl_of Learns resolver⟩
  refine ⟨resolver.Since, remains_since resolver, now, fun later other since judged within part isPart => ?_⟩
  rw [intact.regular.constituentTrees_unfolds since.unfolds] at isPart
  have follows := (judged.follows since.intact.regular.toWellFormed).earlier since.learns
  exact within.2.tail ⟨follows, isPart⟩

/-- A resolver in service is prepared for queries about the types that a type reaches. -/
theorem Serving.prepared (serving : Serving hooks resolver) (has : resolver.table.Has id) :
    resolver.Prepared hooks (resolver.reach id) [id] where
  confined := confined_reach serving.intact serving.judging id
  ready := serving.ready
  within := List.forall_mem_singleton.mpr ⟨has, .refl⟩

/-- Whether the constituents of each of the types are among them. -/
def leadsToEachOther (table : TypeTable) (ids : List TypeId) : Bool :=
  ids.all fun id =>
    match (TableM.constituents id).result? table with
    | some slots => slots.all fun slot => slot.type ∈ ids
    | none => false

theorem constituents_of_leadsToEachOther {table : TypeTable} {ids : List TypeId} (member : id ∈ ids)
    (closed : leadsToEachOther table ids = true) : ∃ slots larger,
      TableM.constituents id table = .ok slots larger ∧ ∀ slot ∈ slots, slot.type ∈ ids := by
  have inside := List.all_eq_true.mp closed id member
  cases answer : (TableM.constituents id).result? table with
  | none =>
      rw [answer] at inside
      cases inside
  | some slots =>
      rw [answer] at inside
      exact ⟨slots, _, run_of_result? answer, by simpa using inside⟩

/-- A type that belongs to types that lead to each other only is made from no others. -/
theorem contents_of_leadsToEachOther {table : TypeTable} {ids : List TypeId} {tree : TypeTree}
    (wellFormed : table.WellFormed) (member : id ∈ ids) (closed : leadsToEachOther table ids = true)
    (inside : tree ∈ table.contents id) : ∃ other ∈ ids, table.tree other = tree := by
  have exist : ∀ other ∈ ids, table.Has other := by
    intro other isOther
    obtain ⟨slots, larger, run, _⟩ := constituents_of_leadsToEachOther isOther closed
    obtain ⟨type, _, fetched, _⟩ := bind_eq_ok.mp run
    exact has_of_get? (TableM.fetch_eq_ok.mp fetched).1
  induction inside with
  | refl => exact ⟨id, member, rfl⟩
  | tail _ isPart ih =>
      obtain ⟨other, isOther, rfl⟩ := ih
      obtain ⟨slots, larger, run, inside⟩ := constituents_of_leadsToEachOther isOther closed
      obtain ⟨slots', larger', run', _, unfolds, holds⟩ := TableM.constituents_works wellFormed (exist other isOther)
      obtain ⟨rfl, rfl⟩ := EStateM.Result.ok.inj (run.symm.trans run')
      rw [← holds.1] at isPart
      obtain ⟨slot, isSlot, rfl⟩ := List.mem_map.mp isPart
      rw [wellFormed.tree_extends unfolds.extends_ (exist _ (inside slot isSlot))]
      exact ⟨slot.type, inside slot isSlot, rfl⟩

theorem finite_contents_of_leadsToEachOther {table : TypeTable} {ids : List TypeId} (wellFormed : table.WellFormed)
    (member : id ∈ ids) (closed : leadsToEachOther table ids = true) : (table.contents id).Finite := by
  refine (ids.map table.tree).finite_toSet.subset fun tree inside => ?_
  obtain ⟨other, isOther, rfl⟩ := contents_of_leadsToEachOther wellFormed member closed inside
  exact List.mem_map_of_mem isOther

theorem reach_subset_contents (resolver : Resolver) (id : TypeId) : resolver.reach id ⊆ resolver.table.contents id :=
  fun _ reached => Relation.ReflTransGen.mono (fun _ _ turn => turn.2) _ _ reached

/-- A type that belongs to types that lead to each other only reaches no others. -/
theorem finite_reach {ids : List TypeId} (intact : resolver.Intact) (member : id ∈ ids)
    (closed : leadsToEachOther resolver.table ids = true) : (resolver.reach id).Finite :=
  (finite_contents_of_leadsToEachOther intact.regular.toWellFormed member closed).subset
    (reach_subset_contents resolver id)

end Resolver
end LifecycleHooks

import LifecycleHooks.Proofs.Safety

/-!
# What an answer brings about

A computation gives what is wanted when it does so each time it has a result.  Nothing is
said about its faults, so parts that may fail need no reason why they do not.
-/

namespace LifecycleHooks
namespace Attempt

variable {State Part First Second Result : Type} {state : State} {holds : State → Prop}
  {relation : State → State → Prop}

/-- If a computation has a result, a property holds of the state that is left, which is related to
the first one, and something is told of the result. -/
def Gives (holds : State → Prop) (relation : State → State → Prop) (tells : Result → State → Prop)
    (action : Attempt State Result) (state : State) : Prop :=
  ∀ result later, action state = .ok result later → (holds later ∧ relation state later) ∧ tells result later

/-- What is yielded is given. -/
theorem Yields.gives {tells : Result → State → Prop} {action : Attempt State Result}
    (yields : Yields holds relation tells action state) : Gives holds relation tells action state :=
  fun _ _ run => yields.of_ok run

theorem Gives.mono {tells wanted : Result → State → Prop} {action : Attempt State Result}
    (gives : Gives holds relation tells action state)
    (weaker : ∀ result later, holds later → tells result later → wanted result later) :
    Gives holds relation wanted action state := by
  intro result later run
  obtain ⟨⟨stillHolds, related⟩, told⟩ := gives result later run
  exact ⟨⟨stillHolds, related⟩, weaker result later stillHolds told⟩

theorem Gives.relax {other : State → State → Prop} {tells : Result → State → Prop} {action : Attempt State Result}
    (gives : Gives holds relation tells action state) (weaker : ∀ later, relation state later → other state later) :
    Gives holds other tells action state := by
  intro result later run
  obtain ⟨⟨stillHolds, related⟩, told⟩ := gives result later run
  exact ⟨⟨stillHolds, weaker later related⟩, told⟩

/-- From states of which a property holds, the state that is left is related to the first one, and the property
holds of it again. -/
def Guides (holds : State → Prop) (relation : State → State → Prop) (state later : State) : Prop :=
  holds state → holds later ∧ relation state later

instance (holds : State → Prop) (relation : State → State → Prop) [IsPreorder State relation] :
    IsPreorder State (Guides holds relation) where
  refl state still := ⟨still, refl_of relation state⟩
  trans _ _ _ first second still :=
    ⟨(second (first still).1).1, trans_of relation (first still).2 (second (first still).1).2⟩

/-- What is given wherever a property holds leads on to where it holds. -/
theorem leads_of_gives {tells : Result → State → Prop} {action : Attempt State Result}
    (gives : ∀ state, holds state → Gives holds relation tells action state) :
    action.Leads (Guides holds relation) fun _ _ => True :=
  leads_of_ok fun state result later run still => (gives state still result later run).1

theorem gives_of_leads {action : Attempt State Result} (leads : action.Leads (Guides holds relation) fun _ _ => True)
    (still : holds state) : Gives holds relation (fun _ _ => True) action state :=
  fun _ _ run => ⟨leads.of_ok run still, trivial⟩

theorem gives_throw {tells : Result → State → Prop} (fault : Fault) :
    Gives holds relation tells (throw fault : Attempt State Result) state :=
  fun _ _ run => by cases run

theorem gives_modify {tells : Unit → State → Prop} {change : State → State} (changed : holds (change state))
    (related : relation state (change state)) (told : tells () (change state)) :
    Gives holds relation tells (modify change) state := by
  intro result later run
  rw [modify_run] at run
  obtain ⟨-, rfl⟩ := EStateM.Result.ok.inj run
  exact ⟨⟨changed, related⟩, told⟩

/-- After a part that only reads the state, the rest decides. -/
theorem Gives.read {wanted : Second → State → Prop} {action : Attempt State First} {next : First → Attempt State Second}
    (reads : ∀ first later, action state = .ok first later → later = state)
    (rest : ∀ first, action state = .ok first state → Gives holds relation wanted (next first) state) :
    Gives holds relation wanted (action >>= next) state := by
  intro result later run
  obtain ⟨first, middle, read, next⟩ := bind_eq_ok.mp run
  obtain rfl := reads first middle read
  exact rest first read result later next

/-- A computation on a part of the state gives what it gives on the part. -/
theorem Gives.onPart {part : State → Part} {replace : Part → State → State} {keeps : Part → Prop}
    {along : Part → Part → Prop} {tells : Result → Part → Prop} {action : Attempt Part Result}
    (gives : Gives keeps along tells action (part state))
    (lifts : ∀ changed, keeps changed → along (part state) changed →
      holds (replace changed state) ∧ relation state (replace changed state))
    (replaced : ∀ changed, part (replace changed state) = changed) :
    Gives holds relation (fun result later => tells result (part later)) (onPart part replace action) state := by
  intro result later run
  obtain ⟨changed, acted, rfl⟩ := onPart_eq_ok.mp run
  obtain ⟨⟨kept, related⟩, told⟩ := gives result changed acted
  refine ⟨lifts changed kept related, ?_⟩
  dsimp only
  rwa [replaced]

section Sequences

variable [IsPreorder State relation]

theorem gives_pure {tells : Result → State → Prop} {result : Result} (still : holds state) (told : tells result state) :
    Gives holds relation tells (pure result) state := by
  intro _ _ run
  obtain ⟨rfl, rfl⟩ := EStateM.Result.ok.inj run
  exact ⟨⟨still, refl_of relation state⟩, told⟩

theorem Gives.bind {tells : First → State → Prop} {wanted : Second → State → Prop}
    {action : Attempt State First} {next : First → Attempt State Second}
    (gives : Gives holds relation tells action state)
    (rest : ∀ result later, holds later → relation state later → tells result later →
      Gives holds relation wanted (next result) later) : Gives holds relation wanted (action >>= next) state := by
  intro result later run
  obtain ⟨first, middle, acted, next⟩ := bind_eq_ok.mp run
  obtain ⟨⟨between, before⟩, told⟩ := gives first middle acted
  obtain ⟨⟨stillHolds, behind⟩, wanted⟩ := rest first middle between before told result later next
  exact ⟨⟨stillHolds, trans_of relation before behind⟩, wanted⟩

/-- What is told of a result lasts along the relation. -/
theorem gives_mapM {items : List First} {tells : Second → State → Prop} {action : First → Attempt State Second}
    (each : ∀ item ∈ items, ∀ later, holds later → relation state later →
      Gives holds relation tells (action item) later)
    (lasts : ∀ result later last, relation later last → tells result later → tells result last)
    (still : holds state) :
    Gives holds relation (fun results later => ∀ result ∈ results, tells result later) (items.mapM action) state := by
  induction items generalizing state with
  | nil => exact gives_pure still (by simp)
  | cons item items ih =>
      rw [List.mapM_cons]
      apply (each item List.mem_cons_self state still (refl_of relation state)).bind
      intro result middle onwards before told
      have others : ∀ other ∈ items, ∀ later, holds later → relation middle later →
          Gives holds relation tells (action other) later := fun other member later holds related =>
        each other (List.mem_cons_of_mem item member) later holds (trans_of relation before related)
      apply (ih others onwards).bind
      intro results last lastHolds behind otherTold
      exact gives_pure lastHolds (List.forall_mem_cons.mpr ⟨lasts result middle last behind told, otherTold⟩)

theorem gives_forM {items : List First} {action : First → Attempt State PUnit}
    (each : ∀ item ∈ items, ∀ later, holds later → relation state later →
      Gives holds relation (fun _ _ => True) (action item) later)
    (still : holds state) : Gives holds relation (fun _ _ => True) (items.forM action) state := by
  induction items generalizing state with
  | nil => exact gives_pure still trivial
  | cons item items ih =>
      apply (each item List.mem_cons_self state still (refl_of relation state)).bind
      intro _ middle onwards before _
      exact ih (fun other member later holds related =>
        each other (List.mem_cons_of_mem item member) later holds (trans_of relation before related)) onwards

end Sequences
end Attempt
end LifecycleHooks

import LifecycleHooks.Proofs.Attempt

/-!
# Computations that only run out of budget

A computation is safe in a state when it brings about what is wanted unless it uses up its
budget: no other fault is ever met.  What happens to the state after the budget is used up
does not matter, since nothing recovers from that.
-/

namespace LifecycleHooks
namespace Attempt

variable {State Part First Second Result : Type} {state : State}

/-- A computation brings about what is wanted, or uses up its budget. -/
def Safe (brings : Result → State → Prop) (action : Attempt State Result) (state : State) : Prop :=
  match action state with
  | .ok result final => brings result final
  | .error fault _ => fault = .exhausted

theorem Safe.of_ok {brings : Result → State → Prop} {action : Attempt State Result}
    (safe : Safe brings action state) {result : Result} {final : State}
    (run : action state = .ok result final) : brings result final := by
  unfold Safe at safe
  rwa [run] at safe

theorem Safe.of_error {brings : Result → State → Prop} {action : Attempt State Result}
    (safe : Safe brings action state) {fault : Fault} {final : State}
    (run : action state = .error fault final) : fault = .exhausted := by
  unfold Safe at safe
  rwa [run] at safe

theorem safe_of_ok {brings : Result → State → Prop} {action : Attempt State Result}
    {result : Result} {final : State} (run : action state = .ok result final)
    (brought : brings result final) : Safe brings action state := by
  unfold Safe
  rwa [run]

theorem safe_pure {brings : Result → State → Prop} {result : Result} (brought : brings result state) :
    Safe brings (pure result) state :=
  brought

theorem safe_exhausted {brings : Result → State → Prop} :
    Safe brings (throw .exhausted : Attempt State Result) state :=
  rfl

theorem Safe.mono {brings wanted : Result → State → Prop} {action : Attempt State Result}
    (safe : Safe brings action state)
    (weaker : ∀ result final, action state = .ok result final → brings result final → wanted result final) :
    Safe wanted action state := by
  unfold Safe at safe ⊢
  cases run : action state with
  | ok result final =>
      rw [run] at safe
      exact weaker result final run safe
  | error fault final =>
      rw [run] at safe
      exact safe

theorem Safe.bind {brings : First → State → Prop} {wanted : Second → State → Prop}
    {action : Attempt State First} {next : First → Attempt State Second} (safe : Safe brings action state)
    (rest : ∀ result final, action state = .ok result final → brings result final →
      Safe wanted (next result) final) : Safe wanted (action >>= next) state := by
  unfold Safe at safe ⊢
  rw [bind_run]
  cases run : action state with
  | ok result final =>
      rw [run] at safe
      exact rest result final run safe
  | error fault final =>
      rw [run] at safe
      exact safe

/-- After a part that succeeds, the rest decides. -/
theorem Safe.after {wanted : Second → State → Prop} {action : Attempt State First}
    {next : First → Attempt State Second} {first : First} {middle : State}
    (run : action state = .ok first middle) (rest : Safe wanted (next first) middle) :
    Safe wanted (action >>= next) state := by
  unfold Safe at rest ⊢
  rwa [bind_run_of_ok run]

theorem Safe.onPart {part : State → Part} {replace : Part → State → State}
    {wanted : Result → State → Prop} {action : Attempt Part Result}
    (safe : Safe (fun result changed => wanted result (replace changed state)) action (part state)) :
    Safe wanted (onPart part replace action) state := by
  unfold Safe Attempt.onPart at *
  cases run : action (part state) <;> rwa [run] at safe

/-- On the way to sound states: a computation that is safe, leads along a relation to a sound
state, and yields a result of which something is told. -/
def Yields (sound : State → Prop) (relation : State → State → Prop) (tells : Result → State → Prop)
    (action : Attempt State Result) (state : State) : Prop :=
  Safe (fun result later => (sound later ∧ relation state later) ∧ tells result later) action state

section Soundness

variable {sound : State → Prop} {relation : State → State → Prop} [IsPreorder State relation]

theorem yields_pure {tells : Result → State → Prop} {result : Result} (holds : sound state)
    (told : tells result state) : Yields sound relation tells (pure result) state :=
  safe_pure ⟨⟨holds, refl_of relation state⟩, told⟩

omit [IsPreorder State relation] in
theorem yields_exhausted {tells : Result → State → Prop} :
    Yields sound relation tells (throw .exhausted : Attempt State Result) state :=
  safe_exhausted

omit [IsPreorder State relation] in
theorem yields_modify {tells : Unit → State → Prop} {change : State → State} (holds : sound (change state))
    (related : relation state (change state)) (told : tells () (change state)) :
    Yields sound relation tells (modify change) state :=
  safe_of_ok (modify_run change state) ⟨⟨holds, related⟩, told⟩

omit [IsPreorder State relation] in
theorem Yields.mono {tells wanted : Result → State → Prop} {action : Attempt State Result}
    (yields : Yields sound relation tells action state)
    (weaker : ∀ result later, sound later → relation state later → tells result later → wanted result later) :
    Yields sound relation wanted action state :=
  Safe.mono yields fun result later _ told => ⟨told.1, weaker result later told.1.1 told.1.2 told.2⟩

omit [IsPreorder State relation] in
theorem Yields.relax {other : State → State → Prop} {tells : Result → State → Prop}
    {action : Attempt State Result} (yields : Yields sound relation tells action state)
    (weaker : ∀ later, relation state later → other state later) : Yields sound other tells action state :=
  Safe.mono yields fun _ later _ told => ⟨⟨told.1.1, weaker later told.1.2⟩, told.2⟩

theorem Yields.bind {tells : First → State → Prop} {wanted : Second → State → Prop}
    {action : Attempt State First} {next : First → Attempt State Second}
    (yields : Yields sound relation tells action state)
    (rest : ∀ result later, sound later → relation state later → tells result later →
      Yields sound relation wanted (next result) later) : Yields sound relation wanted (action >>= next) state := by
  apply Safe.bind yields
  rintro result middle - ⟨⟨holds, related⟩, told⟩
  apply Safe.mono (rest result middle holds related told)
  rintro other last - ⟨⟨lastHolds, further⟩, wanted⟩
  exact ⟨⟨lastHolds, trans_of relation related further⟩, wanted⟩

omit [IsPreorder State relation] in
/-- After a part that only reads the state, the rest decides. -/
theorem Yields.read {wanted : Second → State → Prop} {action : Attempt State First}
    {next : First → Attempt State Second} {first : First} (run : action state = .ok first state)
    (rest : Yields sound relation wanted (next first) state) :
    Yields sound relation wanted (action >>= next) state :=
  Safe.after run rest

omit [IsPreorder State relation] in
theorem Yields.onPart {part : State → Part} {replace : Part → State → State} {keeps : Part → Prop}
    {along : Part → Part → Prop} {tells : Result → Part → Prop} {action : Attempt Part Result}
    (yields : Yields keeps along tells action (part state))
    (lifts : ∀ changed, keeps changed → along (part state) changed →
      sound (replace changed state) ∧ relation state (replace changed state))
    (replaced : ∀ changed, part (replace changed state) = changed) :
    Yields sound relation (fun result later => tells result (part later)) (onPart part replace action) state := by
  refine Safe.onPart (Safe.mono yields ?_)
  rintro result changed - ⟨⟨holds, related⟩, told⟩
  refine ⟨lifts changed holds related, ?_⟩
  rwa [← replaced changed] at told

/-- What follows the outcome of a safe computation has a result to go on with, or hears that
the budget is used up. -/
theorem Yields.outcome {tells : First → State → Prop} {wanted : Second → State → Prop}
    {action : Attempt State First} {next : Except Fault First → Attempt State Second}
    (yields : Yields sound relation tells action state)
    (rest : ∀ result later, sound later → relation state later → tells result later →
      Yields sound relation wanted (next (.ok result)) later)
    (gives : next (.error .exhausted) = throw .exhausted) :
    Yields sound relation wanted (action.outcome >>= next) state := by
  unfold Yields Safe at yields
  cases run : action state with
  | ok result later =>
      rw [run] at yields
      obtain ⟨⟨holds, related⟩, told⟩ := yields
      have outcome : action.outcome state = .ok (.ok result) later := by simp [Attempt.outcome, run]
      refine Safe.after outcome (Safe.mono (rest result later holds related told) ?_)
      rintro other last - ⟨⟨lastHolds, further⟩, wanted⟩
      exact ⟨⟨lastHolds, trans_of relation related further⟩, wanted⟩
  | error fault later =>
      rw [run] at yields
      have outcome : action.outcome state = .ok (.error .exhausted) later := by
        simp [Attempt.outcome, run, yields]
      exact Safe.after outcome (gives ▸ safe_exhausted)

theorem Yields.andFinally {tells wanted : Result → State → Prop} {action : Attempt State Result}
    {cleanUp : State → State} (yields : Yields sound relation tells action state)
    (cleans : ∀ result middle, sound middle → tells result middle →
      sound (cleanUp middle) ∧ relation middle (cleanUp middle) ∧ wanted result (cleanUp middle)) :
    Yields sound relation wanted (action.andFinally cleanUp) state := by
  unfold Yields Safe Attempt.andFinally at *
  cases run : action state with
  | ok result middle =>
      rw [run] at yields
      obtain ⟨⟨holds, related⟩, told⟩ := yields
      obtain ⟨stillHolds, further, wanted⟩ := cleans result middle holds told
      exact ⟨⟨stillHolds, trans_of relation related further⟩, wanted⟩
  | error fault middle =>
      rw [run] at yields
      exact yields

variable {items : List First}

/-- What is told of a result lasts along the relation. -/
theorem yields_mapM {tells : Second → State → Prop} {action : First → Attempt State Second}
    (each : ∀ item ∈ items, ∀ later, sound later → relation state later →
      Yields sound relation tells (action item) later)
    (lasts : ∀ result later last, relation later last → tells result later → tells result last)
    (holds : sound state) :
    Yields sound relation (fun results later => ∀ result ∈ results, tells result later)
      (items.mapM action) state := by
  induction items generalizing state with
  | nil => exact yields_pure holds (by simp)
  | cons item items ih =>
      rw [List.mapM_cons]
      apply (each item List.mem_cons_self state holds (refl_of relation state)).bind
      intro result middle onwards before told
      have others : ∀ other ∈ items, ∀ later, sound later → relation middle later →
          Yields sound relation tells (action other) later := fun other member later holds related =>
        each other (List.mem_cons_of_mem item member) later holds (trans_of relation before related)
      apply (ih others onwards).bind
      intro results last lastHolds behind otherTold
      exact yields_pure lastHolds (List.forall_mem_cons.mpr ⟨lasts result middle last behind told, otherTold⟩)

/-- Where nothing is told of a result, nothing has to last. -/
theorem yields_mapM_each {action : First → Attempt State Second}
    (each : ∀ item ∈ items, ∀ later, sound later → relation state later →
      Yields sound relation (fun _ _ => True) (action item) later)
    (holds : sound state) : Yields sound relation (fun _ _ => True) (items.mapM action) state :=
  (yields_mapM each (fun _ _ _ _ _ => trivial) holds).mono fun _ _ _ _ _ => trivial

theorem yields_forM {action : First → Attempt State PUnit}
    (each : ∀ item ∈ items, ∀ later, sound later → relation state later →
      Yields sound relation (fun _ _ => True) (action item) later)
    (holds : sound state) : Yields sound relation (fun _ _ => True) (items.forM action) state := by
  induction items generalizing state with
  | nil => exact yields_pure holds trivial
  | cons item items ih =>
      apply (each item List.mem_cons_self state holds (refl_of relation state)).bind
      intro _ middle onwards before _
      exact ih (fun other member later holds related =>
        each other (List.mem_cons_of_mem item member) later holds (trans_of relation before related)) onwards

theorem yields_filterM {test : First → Attempt State Bool}
    (each : ∀ item ∈ items, ∀ later, sound later → relation state later →
      Yields sound relation (fun _ _ => True) (test item) later)
    (holds : sound state) :
    Yields sound relation (fun chosen _ => ∀ item ∈ chosen, item ∈ items) (items.filterM test) state := by
  induction items generalizing state with
  | nil =>
      rw [filterM_nil]
      exact yields_pure holds (by simp)
  | cons item items ih =>
      rw [filterM_cons]
      apply (each item List.mem_cons_self state holds (refl_of relation state)).bind
      intro chosen middle onwards before _
      have others : ∀ other ∈ items, ∀ later, sound later → relation middle later →
          Yields sound relation (fun _ _ => True) (test other) later := fun other member later holds related =>
        each other (List.mem_cons_of_mem item member) later holds (trans_of relation before related)
      apply (ih others onwards).bind
      intro rest last lastHolds _ inside
      refine yields_pure lastHolds fun other member => ?_
      cases chosen with
      | true =>
          rcases List.mem_cons.mp member with rfl | behind
          · exact List.mem_cons_self
          · exact List.mem_cons_of_mem item (inside other behind)
      | false => exact List.mem_cons_of_mem item (inside other member)

theorem yields_filterMapM {tells : Second → State → Prop} {action : First → Attempt State (Option Second)}
    (each : ∀ item ∈ items, ∀ later, sound later → relation state later →
      Yields sound relation (fun found later => ∀ result ∈ found, tells result later) (action item) later)
    (lasts : ∀ result later last, relation later last → tells result later → tells result last)
    (holds : sound state) :
    Yields sound relation (fun results later => ∀ result ∈ results, tells result later)
      (items.filterMapM action) state := by
  rw [filterMapM_eq]
  have mapped := yields_mapM each
    (fun found later last related told result member => lasts result later last related (told result member)) holds
  apply mapped.bind
  intro results last lastHolds _ told
  refine yields_pure lastHolds fun result member => ?_
  obtain ⟨found, inside, same⟩ := List.mem_filterMap.mp member
  exact told found inside result same

theorem yields_filterMapM_each {action : First → Attempt State (Option Second)}
    (each : ∀ item ∈ items, ∀ later, sound later → relation state later →
      Yields sound relation (fun _ _ => True) (action item) later)
    (holds : sound state) : Yields sound relation (fun _ _ => True) (items.filterMapM action) state := by
  rw [filterMapM_eq]
  exact (yields_mapM_each each holds).bind fun _ _ holds _ _ => yields_pure holds trivial

end Soundness
end Attempt
end LifecycleHooks

import LifecycleHooks.Proofs.Attempt

/-!
# Computations that come to the same again

A computation may answer, or it may fail for want of an id.  Another one, which may have a
larger budget, comes to the same again when it gives the same answer at once in every later
state, and when it fails for want of the same id in the state that the failure has left.  Both
times it leaves the state as it is.  Then a computation that was cut short can be run once more:
it passes through its answers and stops where it stopped.
-/

namespace LifecycleHooks
namespace Attempt

variable {State Part First Second Result : Type}

theorem ofExcept_eq_error {answer : Except Fault Result} {state final : State} {fault : Fault} :
    (ofExcept answer : Attempt State Result) state = .error fault final ↔ answer = .error fault ∧ final = state := by
  cases answer <;> simp [ofExcept, eq_comm]

/-- A property that lasts along a relation. -/
class Upholds (relation : State → State → Prop) (holds : State → Prop) : Prop extends IsPreorder State relation where
  lasts : ∀ state later, relation state later → holds state → holds later

instance (relation : State → State → Prop) [IsPreorder State relation] : Upholds relation fun _ => True where
  lasts _ _ _ _ := trivial

/-- Wherever a property holds, what comes of a computation comes of another one again: an answer in every later
state, and the want of an id in the state that was left, if that state is fit for it. -/
structure Reruns (relation : State → State → Prop) (holds fits : State → Prop)
    (action again : Attempt State Result) : Prop where
  preserves : action.Preserves relation
  answers : ∀ {state final later result}, holds state → action state = .ok result final →
    relation final later → again later = .ok result later
  fails : ∀ {state final missing}, holds state → action state = .error (.unknownId missing) final →
    fits final → again final = .error (.unknownId missing) final

section Stopping

variable {relation : State → State → Prop} [IsPreorder State relation]

/-- Actions that stop early have stopped at one of the items. -/
theorem mapM_eq_error {items : List First} {action : First → Attempt State Second} {state final : State} {fault : Fault}
    (each : ∀ item ∈ items, (action item).Preserves relation) (run : items.mapM action state = .error fault final) :
    ∃ item ∈ items, ∃ middle, relation state middle ∧ action item middle = .error fault final := by
  induction items generalizing state with
  | nil => cases run
  | cons item items ih =>
      rw [List.mapM_cons] at run
      rcases bind_eq_error.mp run with failed | ⟨result, middle, acted, run⟩
      · exact ⟨item, List.mem_cons_self, state, refl_of relation state, failed⟩
      · rcases bind_eq_error.mp run with failed | ⟨results, last, _, run⟩
        · have before := (each item List.mem_cons_self).of_ok acted
          obtain ⟨other, member, between, onwards, failed⟩ :=
            ih (fun other member => each other (List.mem_cons_of_mem item member)) failed
          exact ⟨other, List.mem_cons_of_mem item member, between, trans_of relation before onwards, failed⟩
        · cases run

omit [IsPreorder State relation] in
theorem forM_eq_error {items : List First} {action : First → Attempt State PUnit} {state final : State} {fault : Fault}
    (run : items.forM action state = .error fault final) :
    ∃ item ∈ items, ∃ middle, action item middle = .error fault final := by
  induction items generalizing state with
  | nil => cases run
  | cons item items ih =>
      rcases bind_eq_error.mp run with failed | ⟨_, middle, _, failed⟩
      · exact ⟨item, List.mem_cons_self, state, failed⟩
      · obtain ⟨other, member, between, failed⟩ := ih failed
        exact ⟨other, List.mem_cons_of_mem item member, between, failed⟩

end Stopping

variable {relation : State → State → Prop} {holds fits : State → Prop} [Upholds relation holds]

theorem reruns_pure (result : Result) : Reruns relation holds fits (pure result) (pure result) where
  preserves := leads_pure result
  answers _ run _ := by
    obtain ⟨rfl, rfl⟩ := EStateM.Result.ok.inj run
    rfl
  fails _ run _ := by cases run

/-- A fault of another sort need not come again. -/
theorem reruns_throw {fault : Fault} (other : ∀ id, fault ≠ .unknownId id) (again : Attempt State Result) :
    Reruns relation holds fits (throw fault) again where
  preserves := leads_throw fault
  answers _ run _ := by cases run
  fails _ run _ := absurd (EStateM.Result.error.inj run).1 (other _)

/-- A question to the state, whose answers last. -/
theorem reruns_ask {question : State → Except Fault Result}
    (lasts : ∀ state later result, relation state later → question state = .ok result → question later = .ok result) :
    Reruns relation holds fits (get >>= fun state => ofExcept (question state))
      (get >>= fun state => ofExcept (question state)) where
  preserves := leads_get.bind fun state => leads_ofExcept _
  answers {state final later result} _ run onwards := by
    obtain ⟨answered, rfl⟩ := ofExcept_eq_ok.mp run
    exact ofExcept_eq_ok.mpr ⟨lasts final later result onwards answered, rfl⟩
  fails {state final missing} _ run _ := by
    obtain ⟨failed, rfl⟩ := ofExcept_eq_error.mp run
    exact ofExcept_eq_error.mpr ⟨failed, rfl⟩

/-- Run once more, the first part passes through its answer, and the second part decides. -/
theorem Reruns.bind {action again : Attempt State First} {next follow : First → Attempt State Second}
    (first : Reruns relation holds fits action again)
    (second : ∀ result, Reruns relation holds fits (next result) (follow result)) :
    Reruns relation holds fits (action >>= next) (again >>= follow) where
  preserves := first.preserves.bind fun result => (second result).preserves
  answers {state final later result} still run onwards := by
    obtain ⟨middle, between, acted, rest⟩ := bind_eq_ok.mp run
    have before := first.preserves.of_ok acted
    have behind := trans_of relation ((second middle).preserves.of_ok rest) onwards
    rw [bind_run_of_ok (first.answers still acted behind)]
    exact (second middle).answers (Upholds.lasts state between before still) rest onwards
  fails {state final missing} still run fit := by
    rcases bind_eq_error.mp run with failed | ⟨middle, between, acted, failed⟩
    · rw [bind_run, first.fails still failed fit]
    · have before := first.preserves.of_ok acted
      have behind := (second middle).preserves.of_error failed
      rw [bind_run_of_ok (first.answers still acted behind)]
      exact (second middle).fails (Upholds.lasts state between before still) failed fit

/-- What is read of the state has to stay the same. -/
theorem reruns_get_bind {next again : State → Attempt State Result}
    (same : ∀ state later, relation state later → again later = again state)
    (each : ∀ state, Reruns relation holds fits (next state) (again state)) :
    Reruns relation holds fits (get >>= next) (get >>= again) where
  preserves := leads_get.bind fun state => (each state).preserves
  answers {state final later result} still run onwards := by
    have before : relation state final := (each state).preserves.of_ok run
    rw [get_bind_run, same state later (trans_of relation before onwards)]
    exact (each state).answers still run onwards
  fails {state final missing} still run fit := by
    have before : relation state final := (each state).preserves.of_error run
    rw [get_bind_run, same state final before]
    exact (each state).fails still run fit

theorem reruns_mapM {items : List First} {action again : First → Attempt State Second}
    (each : ∀ item ∈ items, Reruns relation holds fits (action item) (again item)) :
    Reruns relation holds fits (items.mapM action) (items.mapM again) := by
  induction items with
  | nil => exact reruns_pure []
  | cons item items ih =>
      rw [List.mapM_cons, List.mapM_cons]
      refine (each item List.mem_cons_self).bind fun _ => ?_
      exact (ih fun other member => each other (List.mem_cons_of_mem item member)).bind fun _ => reruns_pure _

theorem reruns_filterM {items : List First} {test again : First → Attempt State Bool}
    (each : ∀ item ∈ items, Reruns relation holds fits (test item) (again item)) :
    Reruns relation holds fits (items.filterM test) (items.filterM again) := by
  induction items with
  | nil =>
      rw [filterM_nil, filterM_nil]
      exact reruns_pure []
  | cons item items ih =>
      rw [filterM_cons, filterM_cons]
      refine (each item List.mem_cons_self).bind fun _ => ?_
      exact (ih fun other member => each other (List.mem_cons_of_mem item member)).bind fun _ => reruns_pure _

omit [Upholds relation holds] in
/-- What comes again on a part of the state comes again on the whole. -/
theorem Reruns.onPart {part : State → Part} {replace : Part → State → State} {along : Part → Part → Prop}
    {action again : Attempt Part Result}
    (reruns : Reruns along (fun _ => True) (fun _ => True) action again)
    (preserves : (onPart part replace action).Preserves relation)
    (parts : ∀ state later, relation state later → along (part state) (part later))
    (replaced : ∀ changed state, part (replace changed state) = changed)
    (unchanged : ∀ state, replace (part state) state = state) :
    Reruns relation holds fits (onPart part replace action) (onPart part replace again) where
  preserves := preserves
  answers {state final later result} _ run onwards := by
    obtain ⟨changed, acted, rfl⟩ := onPart_eq_ok.mp run
    have onPart := parts _ later onwards
    rw [replaced] at onPart
    exact onPart_eq_ok.mpr ⟨part later, reruns.answers trivial acted onPart, (unchanged later).symm⟩
  fails {state final missing} _ run _ := by
    unfold Attempt.onPart at run ⊢
    cases acted : action (part state) with
    | ok result changed =>
        rw [acted] at run
        cases run
    | error fault changed =>
        rw [acted] at run
        obtain ⟨rfl, rfl⟩ := EStateM.Result.error.inj run
        have same := unchanged (replace changed state)
        rw [replaced] at same ⊢
        rw [reruns.fails trivial acted trivial]
        exact congrArg (EStateM.Result.error _) same

end Attempt
end LifecycleHooks

import LifecycleHooks.Fault
import Mathlib.Data.List.Forall2
import Mathlib.Order.Defs.Unbundled

/-!
# Computations that can fail

A run of a computation is taken apart at its binds.  A computation preserves a
relation when the state that it leaves, by success or by failure, is related to the
state that it started in; this is checked along its text.
-/

namespace LifecycleHooks

theorem ok_bind {First Second : Type} (first : First) (next : First → Except Fault Second) :
    (Except.ok first >>= next) = next first :=
  rfl

theorem eq_ok_of_bind {First Second : Type} {first : Except Fault First} {next : First → Except Fault Second}
    {result : Second} (run : first >>= next = .ok result) :
    ∃ given, first = .ok given ∧ next given = .ok result := by
  cases first with
  | error fault => cases run
  | ok given => exact ⟨given, rfl, run⟩

/-- Questions that are all answered are answered item by item. -/
theorem mapM_eq_map {First Second : Type} {items : List First} {question : First → Except Fault Second}
    {answer : First → Second} (each : ∀ item ∈ items, question item = .ok (answer item)) :
    items.mapM question = .ok (items.map answer) := by
  induction items with
  | nil => rfl
  | cons item items ih =>
      obtain ⟨here, others⟩ := List.forall_mem_cons.mp each
      rw [List.mapM_cons, here, ih others]
      rfl

/-- What is found under a key is among the entries. -/
theorem mem_of_lookup {Key Value : Type} [BEq Key] [LawfulBEq Key] {entries : List (Key × Value)} {key : Key}
    {value : Value} (found : entries.lookup key = some value) : (key, value) ∈ entries := by
  obtain ⟨before, behind, rfl, -⟩ := List.lookup_eq_some_iff.mp found
  simp

/-- An entry whose key occurs once is found under it. -/
theorem lookup_of_mem {Key Value : Type} [BEq Key] [LawfulBEq Key] {entries : List (Key × Value)}
    (distinct : (entries.map Prod.fst).Nodup) {key : Key} {value : Value} (member : (key, value) ∈ entries) :
    entries.lookup key = some value := by
  induction entries with
  | nil => cases member
  | cons entry entries ih =>
      obtain ⟨new, others⟩ := List.nodup_cons.mp distinct
      rcases List.mem_cons.mp member with rfl | behind
      · exact List.lookup_cons_self
      · have differ : key ≠ entry.1 := fun same => new (same ▸ List.mem_map_of_mem (f := Prod.fst) behind)
        rw [List.lookup_cons, beq_eq_false_iff_ne.mpr differ]
        exact ih others behind

namespace Attempt

variable {State Part First Second Result : Type}

section Runs

@[simp]
theorem pure_run (result : Result) (state : State) :
    (pure result : Attempt State Result) state = .ok result state :=
  rfl

@[simp]
theorem throw_run (fault : Fault) (state : State) :
    (throw fault : Attempt State Result) state = .error fault state :=
  rfl

@[simp]
theorem get_run (state : State) : (get : Attempt State State) state = .ok state state :=
  rfl

@[simp]
theorem modify_run (change : State → State) (state : State) :
    (modify change : Attempt State Unit) state = .ok () (change state) :=
  rfl

@[simp]
theorem modifyGet_run (change : State → Result × State) (state : State) :
    (modifyGet change : Attempt State Result) state =
      .ok (change state).1 (change state).2 :=
  rfl

theorem bind_run (action : Attempt State First) (next : First → Attempt State Second)
    (state : State) :
    (action >>= next) state =
      match action state with
      | .ok first middle => next first middle
      | .error fault middle => .error fault middle := by
  change EStateM.bind action next state = _
  unfold EStateM.bind
  cases action state <;> rfl

@[simp]
theorem get_bind_run (next : State → Attempt State Second) (state : State) :
    (get >>= next) state = next state state :=
  rfl

@[simp]
theorem modify_bind_run (change : State → State) (next : Unit → Attempt State Second)
    (state : State) : (modify change >>= next) state = next () (change state) :=
  rfl

/-- A bind succeeds exactly when both of its parts do. -/
theorem bind_eq_ok {action : Attempt State First} {next : First → Attempt State Second}
    {state final : State} {second : Second} :
    (action >>= next) state = .ok second final ↔
      ∃ first middle, action state = .ok first middle ∧ next first middle = .ok second final := by
  rw [bind_run]
  cases action state <;> simp

/-- A bind fails exactly when one of its parts does. -/
theorem bind_eq_error {action : Attempt State First} {next : First → Attempt State Second}
    {state final : State} {fault : Fault} :
    (action >>= next) state = .error fault final ↔ action state = .error fault final ∨
      ∃ first middle, action state = .ok first middle ∧ next first middle = .error fault final := by
  rw [bind_run]
  cases action state <;> simp

theorem bind_run_of_ok {action : Attempt State First} {next : First → Attempt State Second}
    {state middle : State} {first : First} (run : action state = .ok first middle) :
    (action >>= next) state = next first middle := by
  rw [bind_run, run]

@[simp]
theorem ofExcept_eq_ok {answer : Except Fault Result} {state final : State} {result : Result} :
    (ofExcept answer : Attempt State Result) state = .ok result final ↔
      answer = .ok result ∧ final = state := by
  cases answer <;> simp [ofExcept, eq_comm]

theorem onPart_eq_ok {part : State → Part} {replace : Part → State → State}
    {action : Attempt Part Result} {state final : State} {result : Result} :
    onPart part replace action state = .ok result final ↔
      ∃ changed, action (part state) = .ok result changed ∧ final = replace changed state := by
  unfold onPart
  cases action (part state) <;> simp [eq_comm]

theorem andFinally_eq_ok {action : Attempt State Result} {cleanUp : State → State}
    {state final : State} {result : Result} :
    andFinally action cleanUp state = .ok result final ↔
      ∃ changed, action state = .ok result changed ∧ final = cleanUp changed := by
  unfold andFinally
  cases action state <;> simp [eq_comm]

theorem outcome_eq_ok {action : Attempt State Result} {state final : State} {result : Result}
    (run : outcome action state = .ok (.ok result) final) : action state = .ok result final := by
  unfold outcome at run
  cases acted : action state with
  | ok other last =>
      rw [acted] at run
      obtain ⟨same, rfl⟩ := EStateM.Result.ok.inj run
      rw [Except.ok.inj same]
  | error fault last =>
      rw [acted] at run
      cases (EStateM.Result.ok.inj run).1

private theorem filterAuxM_run (test : First → Attempt State Bool) (items kept : List First) :
    items.filterAuxM test kept =
      (do let rest ← items.filterAuxM test []; pure (rest ++ kept)) := by
  induction items generalizing kept with
  | nil => simp [List.filterAuxM]
  | cons item items ih =>
      simp only [List.filterAuxM, bind_assoc]
      refine bind_congr fun chosen => ?_
      rw [ih, ih (bif chosen then [item] else [])]
      cases chosen <;> simp

/-- Filtering looks at the first item before the others. -/
theorem filterM_cons (test : First → Attempt State Bool) (item : First) (items : List First) :
    (item :: items).filterM test =
      (do let chosen ← test item
          let rest ← items.filterM test
          pure (if chosen then item :: rest else rest)) := by
  simp only [List.filterM, List.filterAuxM, bind_assoc, pure_bind]
  refine bind_congr fun chosen => ?_
  rw [filterAuxM_run]
  cases chosen <;> simp

/-- Mapping to what may be missing leaves out what is missing. -/
theorem filterMapM_eq (action : First → Attempt State (Option Second)) (items : List First) :
    items.filterMapM action = (do let found ← items.mapM action; pure (found.filterMap id)) := by
  induction items with
  | nil => rfl
  | cons item items ih =>
      rw [List.filterMapM_cons, List.mapM_cons]
      simp only [bind_assoc, pure_bind]
      refine bind_congr fun found => ?_
      cases found with
      | none => simpa using ih
      | some result => simp [ih]

@[simp]
theorem filterM_nil (test : First → Attempt State Bool) :
    ([] : List First).filterM test = pure [] := by
  simp [List.filterM, List.filterAuxM]

end Runs

/-- The state that a computation leaves. -/
def finish (action : Attempt State Result) (state : State) : State :=
  match action state with
  | .ok _ final => final
  | .error _ final => final

theorem finish_of_ok {action : Attempt State Result} {state final : State} {result : Result}
    (run : action state = .ok result final) : action.finish state = final := by
  simp [finish, run]

theorem finish_get_bind (next : State → Attempt State Result) (state : State) :
    (get >>= next).finish state = (next state).finish state :=
  rfl

theorem finish_of_error {action : Attempt State Result} {state final : State} {fault : Fault}
    (run : action state = .error fault final) : action.finish state = final := by
  simp [finish, run]

/-- The result of a computation, if it succeeds. -/
def result? (action : Attempt State Result) (state : State) : Option Result :=
  match action state with
  | .ok result _ => some result
  | .error _ _ => none

theorem run_of_result? {action : Attempt State Result} {state : State} {result : Result}
    (succeeds : action.result? state = some result) :
    action state = .ok result (action.finish state) := by
  unfold result? at succeeds
  unfold finish
  cases run : action state with
  | ok other final =>
      rw [run] at succeeds
      cases succeeds
      rfl
  | error fault final =>
      rw [run] at succeeds
      cases succeeds

theorem result?_eq_none {action : Attempt State Result} {state : State}
    (fails : ∀ result final, action state ≠ .ok result final) : action.result? state = none := by
  unfold result?
  cases run : action state with
  | ok result final => exact absurd run (fails result final)
  | error fault final => rfl

@[simp]
theorem finish_andFinally (action : Attempt State Result) (cleanUp : State → State)
    (state : State) : (action.andFinally cleanUp).finish state = cleanUp (action.finish state) := by
  unfold finish andFinally
  cases action state <;> rfl

/-- What holds of the state left by a bind is shown for its first part when that
fails, and for its second part otherwise. -/
theorem finish_bind {property : State → Prop} {action : Attempt State First}
    {next : First → Attempt State Second} {state : State}
    (fails : ∀ fault middle, action state = .error fault middle → property middle)
    (continues : ∀ first middle, action state = .ok first middle →
      property ((next first).finish middle)) :
    property ((action >>= next).finish state) := by
  unfold finish at continues ⊢
  rw [bind_run]
  cases run : action state with
  | ok first middle => exact continues first middle run
  | error fault middle => exact fails fault middle run

/-- A computation leads along two relations when the state that it leaves is related to
the one it started in, by the first relation if it succeeds and by the second if it
fails. -/
def Leads (done failed : State → State → Prop) (action : Attempt State Result) : Prop :=
  ∀ state, match action state with
    | .ok _ final => done state final
    | .error _ final => failed state final

/-- A computation preserves a relation when it always leaves a state that is
related to the one it started in. -/
def Preserves (relation : State → State → Prop) (action : Attempt State Result) : Prop :=
  Leads relation relation action

/-- Relations along which computations can be led one after the other. -/
class IsLead (done failed : State → State → Prop) : Prop extends IsPreorder State done where
  begins : ∀ state, failed state state
  goesOn : ∀ state middle final, done state middle → failed middle final → failed state final

instance (relation : State → State → Prop) [IsPreorder State relation] :
    IsLead relation relation where
  begins state := refl_of relation state
  goesOn _ _ _ first second := trans_of relation first second

instance (relation : State → State → Prop) [IsPreorder State relation] :
    IsLead relation fun _ _ => True where
  begins _ := trivial
  goesOn _ _ _ _ _ := trivial

section Leading

variable {done failed : State → State → Prop}

theorem Leads.of_ok {action : Attempt State Result} (leads : action.Leads done failed)
    {state final : State} {result : Result} (run : action state = .ok result final) :
    done state final := by
  have related := leads state
  rwa [run] at related

theorem Leads.of_error {action : Attempt State Result} (leads : action.Leads done failed)
    {state final : State} {fault : Fault} (run : action state = .error fault final) :
    failed state final := by
  have related := leads state
  rwa [run] at related

theorem leads_of_ok {action : Attempt State Result}
    (related : ∀ state result final, action state = .ok result final → done state final) :
    action.Leads done fun _ _ => True := by
  intro state
  cases run : action state with
  | ok result final => exact related state result final run
  | error fault final => trivial

theorem leads_modify {change : State → State} (related : ∀ state, done state (change state)) :
    (modify change : Attempt State Unit).Leads done failed :=
  related

variable [IsLead done failed]

theorem leads_pure (result : Result) : (pure result : Attempt State Result).Leads done failed :=
  fun state => refl_of done state

theorem leads_throw (fault : Fault) : (throw fault : Attempt State Result).Leads done failed :=
  fun state => IsLead.begins done state

theorem leads_get : (get : Attempt State State).Leads done failed :=
  fun state => refl_of done state

theorem leads_ofExcept (answer : Except Fault Result) :
    (ofExcept answer : Attempt State Result).Leads done failed := by
  cases answer with
  | ok result => exact leads_pure result
  | error fault => exact leads_throw fault

/-- What comes next has to lead from the results that the first part can have. -/
theorem Leads.bind_of_run {action : Attempt State First} {next : First → Attempt State Second}
    (first : action.Leads done failed)
    (second : ∀ state result middle, action state = .ok result middle → (next result).Leads done failed) :
    (action >>= next).Leads done failed := by
  intro state
  rw [bind_run]
  cases run : action state with
  | ok result middle =>
      have before := first.of_ok run
      have behind := second state result middle run
      dsimp only
      cases rest : next result middle with
      | ok other final => exact trans_of done before (behind.of_ok rest)
      | error fault final => exact IsLead.goesOn state middle final before (behind.of_error rest)
  | error fault middle => exact first.of_error run

theorem Leads.bind {action : Attempt State First} {next : First → Attempt State Second}
    (first : action.Leads done failed) (second : ∀ result, (next result).Leads done failed) :
    (action >>= next).Leads done failed :=
  first.bind_of_run fun _ result _ _ => second result

theorem leads_mapM {items : List First} {action : First → Attempt State Second}
    (each : ∀ item ∈ items, (action item).Leads done failed) :
    (items.mapM action).Leads done failed := by
  induction items with
  | nil => exact leads_pure []
  | cons item items ih =>
      rw [List.mapM_cons]
      refine (each item (by simp)).bind fun _ => ?_
      exact (ih fun other member => each other (by simp [member])).bind fun _ => leads_pure _

theorem leads_forM {items : List First} {action : First → Attempt State PUnit}
    (each : ∀ item ∈ items, (action item).Leads done failed) :
    (items.forM action).Leads done failed := by
  induction items with
  | nil => exact leads_pure _
  | cons item items ih =>
      exact (each item (by simp)).bind fun _ =>
        ih fun other member => each other (by simp [member])

/-- What each action brings about holds after all of them when it lasts. -/
theorem forM_brings (goal : State → First → Prop) {items : List First}
    {action : First → Attempt State PUnit} {state final : State}
    (each : ∀ item, (action item).Leads done failed)
    (brings : ∀ item state later, action item state = .ok () later → goal later item)
    (lasts : ∀ item state later, goal state item → done state later → goal later item)
    (run : items.forM action state = .ok () final) : ∀ item ∈ items, goal final item := by
  induction items generalizing state with
  | nil => simp
  | cons item items ih =>
      obtain ⟨_, middle, acted, rest⟩ := bind_eq_ok.mp run
      have later : done middle final := (leads_forM fun other _ => each other).of_ok rest
      intro other member
      rcases List.mem_cons.mp member with rfl | behind
      · exact lasts other middle final (brings other state middle acted) later
      · exact ih rest other behind

/-- What each result tells about its item, when the action is run behind the first state,
holds after all actions when it lasts. -/
theorem mapM_tells_behind (tells : State → First → Second → Prop) {items : List First}
    {action : First → Attempt State Second} {state final : State} {results : List Second}
    (each : ∀ item, (action item).Leads done failed)
    (brings : ∀ item middle later result, done state middle → action item middle = .ok result later →
      tells later item result)
    (lasts : ∀ item result state later, tells state item result → done state later →
      tells later item result)
    (run : items.mapM action state = .ok results final) :
    List.Forall₂ (tells final) items results := by
  induction items generalizing state results with
  | nil =>
      obtain ⟨rfl, rfl⟩ := EStateM.Result.ok.inj run
      exact .nil
  | cons item items ih =>
      rw [List.mapM_cons] at run
      obtain ⟨result, middle, acted, run⟩ := bind_eq_ok.mp run
      obtain ⟨others, last, rest, run⟩ := bind_eq_ok.mp run
      obtain ⟨rfl, rfl⟩ := EStateM.Result.ok.inj run
      have before : done state middle := (each item).of_ok acted
      have later : done middle last := (leads_mapM fun other _ => each other).of_ok rest
      refine .cons (lasts item result middle last ?_ later) (ih ?_ rest)
      · exact brings item state middle result (refl_of done state) acted
      · exact fun other next after answer onwards => brings other next after answer (trans_of done before onwards)

/-- What each result tells about its item holds after all actions when it lasts. -/
theorem mapM_tells (tells : State → First → Second → Prop) {items : List First}
    {action : First → Attempt State Second} {state final : State} {results : List Second}
    (each : ∀ item, (action item).Leads done failed)
    (brings : ∀ item state later result, action item state = .ok result later →
      tells later item result)
    (lasts : ∀ item result state later, tells state item result → done state later →
      tells later item result)
    (run : items.mapM action state = .ok results final) :
    List.Forall₂ (tells final) items results :=
  mapM_tells_behind tells each (fun item middle later result _ => brings item middle later result) lasts run

/-- Results that can be read off the state once they are known, and that last, can be
read off the state after all actions. -/
theorem mapM_reads (known : State → First → Prop) (read : State → First → Second)
    {items : List First} {action : First → Attempt State Second} {state final : State}
    {results : List Second} (each : ∀ item, (action item).Leads done failed)
    (brings : ∀ item state later result, action item state = .ok result later →
      known later item ∧ result = read later item)
    (lasts : ∀ item state later, known state item → done state later →
      known later item ∧ read later item = read state item)
    (run : items.mapM action state = .ok results final) :
    results = items.map (read final) ∧ ∀ item ∈ items, known final item := by
  have told := mapM_tells (fun state item result => known state item ∧ result = read state item)
    each brings
    (fun item result state later told onwards => by
      obtain ⟨still, same⟩ := lasts item state later told.1 onwards
      exact ⟨still, told.2.trans same.symm⟩)
    run
  clear run
  induction told with
  | nil => simp
  | cons first rest ih => simpa [first.1, ← first.2] using ih

omit [IsLead done failed] in
/-- Actions that all succeed on states that keep the invariant succeed one after the other. -/
theorem mapM_succeeds [IsPreorder State done] {invariant : State → Prop}
    {tells : State → First → Second → Prop} {items : List First}
    {action : First → Attempt State Second} {state : State}
    (each : ∀ item ∈ items, ∀ middle, invariant middle → done state middle →
      ∃ result final, action item middle = .ok result final ∧ invariant final ∧
        done middle final ∧ tells final item result)
    (lasts : ∀ item result middle later, invariant middle → tells middle item result →
      done middle later → tells later item result)
    (holds : invariant state) :
    ∃ results final, items.mapM action state = .ok results final ∧ invariant final ∧
      done state final ∧ List.Forall₂ (tells final) items results := by
  induction items generalizing state with
  | nil => exact ⟨[], state, rfl, holds, refl_of done state, .nil⟩
  | cons item items ih =>
      obtain ⟨result, middle, acted, between, before, told⟩ :=
        each item List.mem_cons_self state holds (refl_of done state)
      obtain ⟨results, final, rest, last, after, others⟩ := ih
        (fun other member next holds later => each other (List.mem_cons_of_mem item member) next
          holds (trans_of done before later)) between
      refine ⟨result :: results, final, ?_, last, trans_of done before after,
        .cons (lasts item result middle final between told after) others⟩
      rw [List.mapM_cons, bind_run_of_ok acted, bind_run_of_ok rest]
      rfl

theorem leads_filterM {items : List First} {test : First → Attempt State Bool}
    (each : ∀ item ∈ items, (test item).Leads done failed) :
    (items.filterM test).Leads done failed := by
  induction items with
  | nil =>
      rw [filterM_nil]
      exact leads_pure []
  | cons item items ih =>
      rw [filterM_cons]
      refine (each item (by simp)).bind fun _ => ?_
      exact (ih fun other member => each other (by simp [member])).bind fun _ => leads_pure _

end Leading

section Preservation

variable {relation : State → State → Prop}

theorem preserves_iff {action : Attempt State Result} :
    action.Preserves relation ↔ ∀ state, relation state (action.finish state) := by
  refine forall_congr' fun state => ?_
  unfold finish
  cases action state <;> rfl

theorem Preserves.finish {action : Attempt State Result} (preserves : action.Preserves relation)
    (state : State) : relation state (action.finish state) :=
  preserves_iff.mp preserves state

theorem Preserves.mono {done failed : State → State → Prop} {action : Attempt State Result}
    (preserves : action.Preserves relation)
    (succeeds : ∀ first second, relation first second → done first second)
    (fails : ∀ first second, relation first second → failed first second) :
    action.Leads done failed := by
  intro state
  cases run : action state with
  | ok result final => exact succeeds _ _ (Leads.of_ok preserves run)
  | error fault final => exact fails _ _ (Leads.of_error preserves run)

theorem preserves_andFinally {inner : State → State → Prop} {action : Attempt State Result}
    {cleanUp : State → State} (preserves : action.Preserves inner)
    (cleans : ∀ state middle, inner state middle → relation state (cleanUp middle)) :
    (action.andFinally cleanUp).Preserves relation := by
  rw [preserves_iff]
  intro state
  rw [finish_andFinally]
  exact cleans state _ (preserves.finish state)

theorem preserves_onPart {part : State → Part} {replace : Part → State → State}
    {inner : Part → Part → Prop} {action : Attempt Part Result}
    (preserves : action.Preserves inner)
    (lifts : ∀ state changed, inner (part state) changed → relation state (replace changed state)) :
    (onPart part replace action).Preserves relation := by
  rw [preserves_iff]
  intro state
  have related := lifts state _ (preserves.finish (part state))
  unfold finish onPart
  unfold finish at related
  split at related <;> simp_all

theorem preserves_outcome {action : Attempt State Result} (preserves : action.Preserves relation) :
    (outcome action).Preserves relation := by
  intro state
  have related := preserves state
  unfold outcome
  cases run : action state <;> simpa [run] using related

variable [IsPreorder State relation]

/-- Filtering keeps the items that pass the test.  What a test tells about its item
lasts, so it holds after all tests. -/
theorem filterM_keeps {test : First → Attempt State Bool} {invariant : State → Prop}
    (yes no : State → First → Prop) {items kept : List First} {state final : State}
    (preserves : ∀ item ∈ items, (test item).Preserves relation)
    (keeps : ∀ state later, invariant state → relation state later → invariant later)
    (tells : ∀ item ∈ items, ∀ state later passes, invariant state →
      test item state = .ok passes later → if passes then yes later item else no later item)
    (lasts : ∀ item state later, invariant state → relation state later →
      (yes state item → yes later item) ∧ (no state item → no later item))
    (excludes : ∀ item state, invariant state → no state item → ¬ yes state item)
    (holds : invariant state) (run : items.filterM test state = .ok kept final) :
    ∃ choose : First → Bool, (∀ item, choose item = true ↔ yes final item) ∧
      kept = items.filter choose ∧ ∀ item ∈ items, choose item = true ∨ no final item := by
  induction items generalizing kept state with
  | nil =>
      rw [filterM_nil] at run
      obtain ⟨rfl, rfl⟩ := EStateM.Result.ok.inj run
      exact ⟨fun item => @decide (yes state item) (Classical.propDecidable _), by simp, by simp,
        by simp⟩
  | cons item items ih =>
      rw [filterM_cons] at run
      obtain ⟨passes, middle, tested, run⟩ := bind_eq_ok.mp run
      obtain ⟨rest, last, filtered, run⟩ := bind_eq_ok.mp run
      obtain ⟨rfl, rfl⟩ := EStateM.Result.ok.inj run
      have onwards := keeps _ _ holds ((preserves item (by simp)).of_ok tested)
      have later : relation middle last := (leads_filterM fun other member =>
        preserves other (List.mem_cons_of_mem item member)).of_ok filtered
      obtain ⟨choose, chooses, rfl, others⟩ := ih
        (fun other member => preserves other (List.mem_cons_of_mem item member))
        (fun other member => tells other (List.mem_cons_of_mem item member)) onwards filtered
      have told := tells item (by simp) state middle passes holds tested
      obtain ⟨yesLasts, noLasts⟩ := lasts item middle last onwards later
      cases passes with
      | true =>
          have chosen : choose item = true := (chooses item).mpr (yesLasts told)
          refine ⟨choose, chooses, by simp [chosen], fun other member => ?_⟩
          rcases List.mem_cons.mp member with rfl | behind
          · exact .inl chosen
          · exact others other behind
      | false =>
          have refused : no last item := noLasts told
          have notChosen : ¬ choose item = true := fun chosen =>
            excludes item last (keeps _ _ onwards later) refused ((chooses item).mp chosen)
          refine ⟨choose, chooses, by simp [notChosen], fun other member => ?_⟩
          rcases List.mem_cons.mp member with rfl | behind
          · exact .inr refused
          · exact others other behind

end Preservation
end Attempt
end LifecycleHooks

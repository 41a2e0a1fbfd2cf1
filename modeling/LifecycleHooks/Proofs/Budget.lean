import LifecycleHooks.Proofs.Attempt
import Mathlib.Order.Filter.AtTopBot.Basic

/-!
# Computations with a budget

A computation that is given a budget is steady when a larger budget never changes an
answer.  It settles when every large enough budget leads it to the same answer.
-/

namespace LifecycleHooks
namespace Attempt

open Filter

variable {State First Second Result : Type}

section Refinement

/-- Whatever a computation answers, another one answers too. -/
def Refines (action other : Attempt State Result) : Prop :=
  ∀ state result final, action state = .ok result final → other state = .ok result final

theorem Refines.refl (action : Attempt State Result) : action.Refines action :=
  fun _ _ _ run => run

theorem refines_throw (fault : Fault) (other : Attempt State Result) :
    (throw fault : Attempt State Result).Refines other := by
  intro state result final run
  cases run

theorem Refines.bind {action other : Attempt State First} {next follow : First → Attempt State Second}
    (first : action.Refines other) (second : ∀ result, (next result).Refines (follow result)) :
    (action >>= next).Refines (other >>= follow) := by
  intro state result final run
  obtain ⟨middle, between, acted, rest⟩ := bind_eq_ok.mp run
  rw [bind_run_of_ok (first _ _ _ acted)]
  exact second middle _ _ _ rest

theorem Refines.andFinally {action other : Attempt State Result} (refines : action.Refines other)
    (cleanUp : State → State) :
    (action.andFinally cleanUp).Refines (other.andFinally cleanUp) := by
  intro state result final run
  obtain ⟨changed, acted, rfl⟩ := andFinally_eq_ok.mp run
  exact andFinally_eq_ok.mpr ⟨changed, refines _ _ _ acted, rfl⟩

theorem refines_mapM {items : List First} {action other : First → Attempt State Second}
    (each : ∀ item ∈ items, (action item).Refines (other item)) :
    (items.mapM action).Refines (items.mapM other) := by
  induction items with
  | nil => exact Refines.refl _
  | cons item items ih =>
      rw [List.mapM_cons, List.mapM_cons]
      apply (each item List.mem_cons_self).bind
      intro result
      exact (ih fun other member => each other (List.mem_cons_of_mem item member)).bind
        fun _ => Refines.refl _

theorem refines_forM {items : List First} {action other : First → Attempt State PUnit}
    (each : ∀ item ∈ items, (action item).Refines (other item)) :
    (items.forM action).Refines (items.forM other) := by
  induction items with
  | nil => exact Refines.refl _
  | cons item items ih =>
      apply (each item List.mem_cons_self).bind
      intro result
      exact ih fun other member => each other (List.mem_cons_of_mem item member)

theorem refines_filterM {items : List First} {test other : First → Attempt State Bool}
    (each : ∀ item ∈ items, (test item).Refines (other item)) :
    (items.filterM test).Refines (items.filterM other) := by
  induction items with
  | nil =>
      rw [filterM_nil, filterM_nil]
      exact Refines.refl _
  | cons item items ih =>
      rw [filterM_cons, filterM_cons]
      apply (each item List.mem_cons_self).bind
      intro result
      exact (ih fun other member => each other (List.mem_cons_of_mem item member)).bind
        fun _ => Refines.refl _

theorem Refines.onPart {Part : Type} {action other : Attempt Part Result} (refines : action.Refines other)
    (part : State → Part) (replace : Part → State → State) :
    (action.onPart part replace).Refines (other.onPart part replace) := by
  intro state result final run
  obtain ⟨changed, acted, rfl⟩ := onPart_eq_ok.mp run
  exact onPart_eq_ok.mpr ⟨changed, refines _ _ _ acted, rfl⟩

/-- A larger budget never changes an answer. -/
def Steady (action : Nat → Attempt State Result) : Prop :=
  ∀ budget more, budget ≤ more → (action budget).Refines (action more)

end Refinement

section Settling

/-- A property that lasts: it holds of the later state if it holds of the earlier one. -/
def Lasts (property : State → Prop) (state later : State) : Prop := property state → property later

instance (property : State → Prop) : IsPreorder State (Lasts property) where
  refl _ holds := holds
  trans _ _ _ first second holds := second (first holds)

/-- Every large enough budget leads a computation to the same answer, which brings about
what is wanted. -/
def Settles (brings : Result → State → Prop) (action : Nat → Attempt State Result)
    (state : State) : Prop :=
  ∃ result final, brings result final ∧ ∀ᶠ budget in atTop, action budget state = .ok result final

variable {state : State}

theorem settles_of_ok {brings : Result → State → Prop} {action : Nat → Attempt State Result}
    {result : Result} {final : State} (run : ∀ budget, action budget state = .ok result final)
    (brought : brings result final) : Settles brings action state :=
  ⟨result, final, brought, .of_forall run⟩

theorem settles_pure {brings : Result → State → Prop} {result : Result}
    (brought : brings result state) : Settles brings (fun _ => pure result) state :=
  settles_of_ok (fun _ => pure_run result state) brought

theorem Settles.mono {brings wanted : Result → State → Prop} {action : Nat → Attempt State Result}
    (settles : Settles brings action state)
    (weaker : ∀ result final budget, action budget state = .ok result final →
      brings result final → wanted result final) : Settles wanted action state := by
  obtain ⟨result, final, brought, answers⟩ := settles
  obtain ⟨budget, run⟩ := answers.exists
  exact ⟨result, final, weaker result final budget run brought, answers⟩

/-- One answer of a steady computation settles it. -/
theorem Steady.settles {brings : Result → State → Prop} {action : Nat → Attempt State Result} {budget : Nat}
    {result : Result} {final : State} (steady : Steady action) (run : action budget state = .ok result final)
    (brought : brings result final) : Settles brings action state :=
  ⟨result, final, brought, eventually_atTop.mpr ⟨budget, fun more enough => steady budget more enough _ _ _ run⟩⟩

/-- Any answer of a steady computation is the one that it settles on. -/
theorem Steady.brings {brings : Result → State → Prop} {action : Nat → Attempt State Result} {budget : Nat}
    {result : Result} {final : State} (steady : Steady action) (settles : Settles brings action state)
    (run : action budget state = .ok result final) : brings result final := by
  obtain ⟨found, last, brought, answers⟩ := settles
  obtain ⟨least, always⟩ := eventually_atTop.mp answers
  have later := steady budget (budget + least) (Nat.le_add_right _ _) _ _ _ run
  obtain ⟨rfl, rfl⟩ := EStateM.Result.ok.inj (later.symm.trans (always (budget + least) (Nat.le_add_left _ _)))
  exact brought

/-- The first part of a budget may be spent beforehand. -/
theorem Settles.of_succ {brings : Result → State → Prop} {action : Nat → Attempt State Result}
    (settles : Settles brings (fun budget => action (budget + 1)) state) :
    Settles brings action state := by
  obtain ⟨result, final, brought, answers⟩ := settles
  obtain ⟨least, always⟩ := eventually_atTop.mp answers
  refine ⟨result, final, brought, eventually_atTop.mpr ⟨least + 1, fun budget enough => ?_⟩⟩
  obtain ⟨less, rfl⟩ : ∃ less, budget = less + 1 := ⟨budget - 1, by omega⟩
  exact always less (by omega)

theorem Settles.bind {brings : First → State → Prop} {wanted : Second → State → Prop}
    {action : Nat → Attempt State First} {next : First → Nat → Attempt State Second}
    (settles : Settles brings action state)
    (rest : ∀ result final budget, action budget state = .ok result final → brings result final →
      Settles wanted (next result) final) :
    Settles wanted (fun budget => action budget >>= fun result => next result budget) state := by
  obtain ⟨first, middle, brought, answers⟩ := settles
  obtain ⟨budget, run⟩ := answers.exists
  obtain ⟨second, final, wanted, continues⟩ := rest first middle budget run brought
  refine ⟨second, final, wanted, ?_⟩
  filter_upwards [answers, continues] with budget acted followed
  rw [bind_run_of_ok acted]
  exact followed

/-- After a part that takes no budget, the rest decides. -/
theorem Settles.after {wanted : Second → State → Prop} {action : Attempt State First}
    {next : First → Nat → Attempt State Second} {first : First} {middle : State}
    (run : action state = .ok first middle) (rest : Settles wanted (next first) middle) :
    Settles wanted (fun budget => action >>= fun result => next result budget) state := by
  obtain ⟨second, final, brought, answers⟩ := rest
  refine ⟨second, final, brought, ?_⟩
  filter_upwards [answers] with budget followed
  rw [bind_run_of_ok run]
  exact followed

theorem Settles.andFinally {brings wanted : Result → State → Prop}
    {action : Nat → Attempt State Result} {cleanUp : State → State}
    (settles : Settles brings action state)
    (cleans : ∀ result middle budget, action budget state = .ok result middle →
      brings result middle → wanted result (cleanUp middle)) :
    Settles wanted (fun budget => (action budget).andFinally cleanUp) state := by
  obtain ⟨result, middle, brought, answers⟩ := settles
  obtain ⟨budget, run⟩ := answers.exists
  refine ⟨result, cleanUp middle, cleans result middle budget run brought, ?_⟩
  filter_upwards [answers] with budget acted
  exact andFinally_eq_ok.mpr ⟨middle, acted, rfl⟩

variable {invariant : State → Prop}

/-- A list of computations settles when each of them does and keeps the invariant that the
next one needs. -/
theorem settles_mapM {items : List First} {action : Nat → First → Attempt State Second}
    (each : ∀ item ∈ items, ∀ state, invariant state →
      Settles (fun _ => invariant) (fun budget => action budget item) state)
    (holds : invariant state) :
    Settles (fun _ => invariant) (fun budget => items.mapM (action budget)) state := by
  induction items generalizing state with
  | nil => exact settles_pure holds
  | cons item items ih =>
      simp only [List.mapM_cons]
      apply (each item List.mem_cons_self state holds).bind
      intro result middle budget run onwards
      apply (ih (fun other member => each other (List.mem_cons_of_mem item member)) onwards).bind
      exact fun _ _ _ _ last => settles_pure last

theorem settles_forM {items : List First} {action : Nat → First → Attempt State PUnit}
    (each : ∀ item ∈ items, ∀ state, invariant state →
      Settles (fun _ => invariant) (fun budget => action budget item) state)
    (holds : invariant state) :
    Settles (fun _ => invariant) (fun budget => items.forM (action budget)) state := by
  induction items generalizing state with
  | nil => exact settles_pure holds
  | cons item items ih =>
      apply (each item List.mem_cons_self state holds).bind
      intro result middle budget run onwards
      exact ih (fun other member => each other (List.mem_cons_of_mem item member)) onwards

theorem settles_filterM {items : List First} {test : Nat → First → Attempt State Bool}
    (each : ∀ item ∈ items, ∀ state, invariant state →
      Settles (fun _ => invariant) (fun budget => test budget item) state)
    (holds : invariant state) :
    Settles (fun _ => invariant) (fun budget => items.filterM (test budget)) state := by
  induction items generalizing state with
  | nil =>
      simp only [filterM_nil]
      exact settles_pure holds
  | cons item items ih =>
      simp only [filterM_cons]
      apply (each item List.mem_cons_self state holds).bind
      intro result middle budget run onwards
      apply (ih (fun other member => each other (List.mem_cons_of_mem item member)) onwards).bind
      exact fun _ _ _ _ last => settles_pure last

end Settling
end Attempt
end LifecycleHooks

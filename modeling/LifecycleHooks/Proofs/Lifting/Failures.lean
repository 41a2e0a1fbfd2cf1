import LifecycleHooks.Proofs.Lifting.Search
import LifecycleHooks.Scope.Exit

/-!
# What resolution can fail with

A query of operations may fail for want of a type or of a budget, but an edge is missed by
nothing except the check of a scope graph.  So the exits of a graph that passes the check are
scheduled without an edge being missed, whatever the hooks, the budget and the resolver.
-/

namespace LifecycleHooks

/-- Whether a fault tells that the exits of a graph are incomplete. -/
def Fault.isMissingEdge : Fault → Bool
  | .missingExitEdge .. => true
  | _ => false

/-- An answer is spared a kind of faults when it is none of them. -/
def Spared (kind : Fault → Bool) {Result : Type} (answer : Except Fault Result) : Prop :=
  ∀ fault, answer = .error fault → kind fault = false

section Answers

variable {kind : Fault → Bool} {First Second : Type}

theorem spared_ok (result : First) : Spared kind (.ok result : Except Fault First) := by
  intro fault failed
  cases failed

theorem spared_error {fault : Fault} (spared : kind fault = false) :
    Spared kind (.error fault : Except Fault First) := by
  intro other failed
  cases failed
  exact spared

theorem Spared.bind {answer : Except Fault First} {next : First → Except Fault Second}
    (first : Spared kind answer) (second : ∀ result, Spared kind (next result)) :
    Spared kind (answer >>= next) := by
  cases answer with
  | ok result => exact second result
  | error fault => exact spared_error (first fault rfl)

theorem spared_mapM {items : List First} {action : First → Except Fault Second}
    (each : ∀ item ∈ items, Spared kind (action item)) : Spared kind (items.mapM action) := by
  induction items with
  | nil => exact spared_ok []
  | cons item items ih =>
      rw [List.mapM_cons]
      refine (each item List.mem_cons_self).bind fun _ => ?_
      exact (ih fun other member => each other (List.mem_cons_of_mem item member)).bind fun _ => spared_ok _

end Answers

namespace Attempt

variable {kind : Fault → Bool} {State Part First Second Result : Type}

/-- A computation is spared a kind of faults when it never fails with one of them. -/
def Spares (kind : Fault → Bool) (action : Attempt State Result) : Prop :=
  ∀ state fault final, action state = .error fault final → kind fault = false

theorem spares_pure (result : Result) : (pure result : Attempt State Result).Spares kind := by
  intro state fault final failed
  cases failed

theorem spares_throw {fault : Fault} (spared : kind fault = false) :
    (throw fault : Attempt State Result).Spares kind := by
  intro state other final failed
  cases failed
  exact spared

theorem spares_get : (get : Attempt State State).Spares kind := by
  intro state fault final failed
  cases failed

theorem spares_modify (change : State → State) : (modify change : Attempt State Unit).Spares kind := by
  intro state fault final failed
  cases failed

theorem spares_ofExcept {answer : Except Fault Result} (spared : Spared kind answer) :
    (ofExcept answer : Attempt State Result).Spares kind := by
  cases answer with
  | ok result => exact spares_pure result
  | error fault => exact spares_throw (spared fault rfl)

theorem Spares.bind {action : Attempt State First} {next : First → Attempt State Second}
    (first : action.Spares kind) (second : ∀ result, (next result).Spares kind) :
    (action >>= next).Spares kind := by
  intro state fault final failed
  rw [bind_run] at failed
  cases run : action state with
  | ok result middle =>
      rw [run] at failed
      exact second result middle fault final failed
  | error other middle =>
      rw [run] at failed
      cases failed
      exact first state _ _ run

theorem Spares.onPart {part : State → Part} {replace : Part → State → State} {action : Attempt Part Result}
    (spares : action.Spares kind) : (onPart part replace action).Spares kind := by
  intro state fault final failed
  unfold Attempt.onPart at failed
  cases run : action (part state) with
  | ok result changed =>
      rw [run] at failed
      cases failed
  | error other changed =>
      rw [run] at failed
      cases failed
      exact spares _ _ _ run

theorem Spares.andFinally {cleanUp : State → State} {action : Attempt State Result}
    (spares : action.Spares kind) : (andFinally action cleanUp).Spares kind := by
  intro state fault final failed
  unfold Attempt.andFinally at failed
  cases run : action state with
  | ok result changed =>
      rw [run] at failed
      cases failed
  | error other changed =>
      rw [run] at failed
      cases failed
      exact spares state _ _ run

theorem spares_mapM {items : List First} {action : First → Attempt State Second}
    (each : ∀ item, (action item).Spares kind) : (items.mapM action).Spares kind := by
  induction items with
  | nil => exact spares_pure []
  | cons item items ih =>
      rw [List.mapM_cons]
      exact (each item).bind fun _ => ih.bind fun _ => spares_pure _

theorem spares_forM {items : List First} {action : First → Attempt State PUnit}
    (each : ∀ item, (action item).Spares kind) : (items.forM action).Spares kind := by
  induction items with
  | nil => exact spares_pure _
  | cons item items ih => exact (each item).bind fun _ => ih

theorem spares_filterM {items : List First} {test : First → Attempt State Bool}
    (each : ∀ item, (test item).Spares kind) : (items.filterM test).Spares kind := by
  induction items with
  | nil =>
      rw [filterM_nil]
      exact spares_pure []
  | cons item items ih =>
      rw [filterM_cons]
      exact (each item).bind fun _ => ih.bind fun _ => spares_pure _

theorem spares_filterMapM {items : List First} {action : First → Attempt State (Option Second)}
    (each : ∀ item, (action item).Spares kind) : (items.filterMapM action).Spares kind := by
  rw [filterMapM_eq]
  exact (spares_mapM each).bind fun _ => spares_pure _

end Attempt

open Attempt

namespace TypeTable

variable (table : TypeTable) (id : TypeId)

theorem get_spared : Spared Fault.isMissingEdge (table.get id) := by
  unfold get
  cases table.get? id with
  | some type => exact spared_ok type
  | none => exact spared_error rfl

theorem ownName_spared : Spared Fault.isMissingEdge (table.ownName id) := by
  refine (table.get_spared id).bind fun type => ?_
  cases type with
  | applied head args =>
      refine (table.get_spared head).bind fun generic => ?_
      cases generic with
      | object object => exact spared_ok _
      | _ => exact spared_error rfl
  | _ => exact spared_ok _

theorem declaredAt_spared : Spared Fault.isMissingEdge (table.declaredAt id) := by
  refine (table.get_spared id).bind fun type => ?_
  cases type with
  | applied head args =>
      refine (table.get_spared head).bind fun generic => ?_
      cases generic with
      | object object => exact spared_ok _
      | _ => exact spared_error rfl
  | _ => exact spared_ok _

theorem spellWithin_spared (depth : Nat) : Spared Fault.isMissingEdge (table.spellWithin depth id) := by
  induction depth generalizing id with
  | zero => exact spared_error rfl
  | succ depth ih =>
      refine (table.get_spared id).bind fun type => ?_
      cases type with
      | array length element => exact (ih element).bind fun _ => spared_ok _
      | tuple elements => exact (spared_mapM fun other _ => ih other).bind fun _ => spared_ok _
      | wrap wrapper inner => cases wrapper <;> exact (ih inner).bind fun _ => spared_ok _
      | applied head args =>
          refine (table.ownName_spared id).bind fun _ => ?_
          exact (spared_mapM fun other _ => ih other).bind fun _ => spared_ok _
      | object object =>
          dsimp only
          split
          · exact spared_ok _
          · exact (spared_mapM fun param _ => table.ownName_spared param).bind fun _ => spared_ok _
      | _ => exact table.ownName_spared id

theorem head?_spared : Spared Fault.isMissingEdge (table.head? id) := by
  refine (table.get_spared id).bind fun type => ?_
  cases type <;> exact spared_ok _

theorem nominalHook?_spared (hooks : Registry) (kind : OpKind) :
    Spared Fault.isMissingEdge (table.nominalHook? hooks id kind) := by
  refine Spared.bind ((table.get_spared id).bind fun _ => spared_ok _) fun nominal => ?_
  split
  · exact spared_ok _
  · cases hooks.lookup id kind with
    | some entry => exact spared_ok _
    | none =>
        refine (table.head?_spared id).bind fun head => ?_
        cases head <;> exact spared_ok _

theorem governingHook?_spared (hooks : Registry) (kind : OpKind) :
    Spared Fault.isMissingEdge (table.governingHook? hooks id kind) := by
  refine (table.get_spared id).bind fun type => ?_
  split
  · exact (table.nominalHook?_spared _ hooks .deepCopy).bind fun _ => spared_ok _
  · exact spared_ok _
  · exact spared_ok _
  · exact table.nominalHook?_spared id hooks _

end TypeTable

namespace TableM

variable (id : TypeId)

theorem fetch_spares : (fetch id).Spares Fault.isMissingEdge :=
  spares_get.bind fun table => spares_ofExcept (table.get_spared id)

theorem intern_spares (type : TypeDef) : (intern type).Spares Fault.isMissingEdge := by
  refine spares_get.bind fun table => ?_
  cases table.find? type with
  | some found => exact spares_pure found
  | none =>
      intro state fault final failed
      cases failed

theorem instantiate_spares (args : List TypeId) : (instantiate id args).Spares Fault.isMissingEdge := by
  refine (fetch_spares id).bind fun type => ?_
  refine spares_get.bind fun table => (spares_ofExcept (table.ownName_spared id)).bind fun name => ?_
  split
  · exact spares_throw rfl
  · split
    · exact spares_throw rfl
    · exact intern_spares _

theorem substituteWithin_spares (mapping : Substitution) (depth : Nat) :
    (substituteWithin mapping depth id).Spares Fault.isMissingEdge := by
  induction depth generalizing id with
  | zero => exact spares_throw rfl
  | succ depth ih =>
      refine (fetch_spares id).bind fun type => ?_
      cases type with
      | array length element => exact (ih element).bind fun _ => intern_spares _
      | tuple elements => exact (spares_mapM ih).bind fun _ => intern_spares _
      | wrap wrapper inner => exact (ih inner).bind fun _ => intern_spares _
      | applied head args => exact (spares_mapM ih).bind fun _ => instantiate_spares head _
      | _ => exact spares_pure _

theorem substitute_spares (mapping : Substitution) : (substitute mapping id).Spares Fault.isMissingEdge := by
  unfold substitute
  split
  · exact spares_pure id
  · exact spares_get.bind fun table => substituteWithin_spares id mapping _

theorem substituteBody_spares (mapping : Substitution) (body : Body) :
    (substituteBody mapping body).Spares Fault.isMissingEdge := by
  refine (spares_mapM fun field => ?_).bind fun fields => ?_
  · exact (substitute_spares field.type mapping).bind fun _ => spares_pure _
  · cases body.base with
    | none => exact (spares_pure none).bind fun _ => spares_pure _
    | some base => exact ((substitute_spares base mapping).bind fun _ => spares_pure _).bind fun _ => spares_pure _

theorem body_spares : (body id).Spares Fault.isMissingEdge := by
  refine (fetch_spares id).bind fun type => ?_
  cases type with
  | applied head args =>
      refine spares_get.bind fun table => ?_
      cases (table.cell? id).bind Cell.body with
      | some known => exact spares_pure known
      | none =>
          refine (fetch_spares head).bind fun generic => ?_
          cases generic with
          | object object =>
              refine (substituteBody_spares _ _).bind fun result => ?_
              exact (spares_modify _).bind fun _ => spares_pure _
          | _ => exact spares_pure _
  | _ => exact spares_pure _

theorem constituents_spares : (constituents id).Spares Fault.isMissingEdge := by
  refine (fetch_spares id).bind fun type => ?_
  cases type with
  | object object => exact (body_spares id).bind fun _ => spares_pure _
  | applied head args => exact (body_spares id).bind fun _ => spares_pure _
  | wrap wrapper inner => cases wrapper <;> exact spares_pure _
  | _ => exact spares_pure _

theorem nestingWithin_spares (depth : Nat) : (nestingWithin depth id).Spares Fault.isMissingEdge := by
  induction depth generalizing id with
  | zero => exact spares_throw rfl
  | succ depth ih =>
      refine spares_get.bind fun table => ?_
      cases (table.cell? id).bind Cell.depth with
      | some known => exact spares_pure known
      | none =>
          refine (fetch_spares id).bind fun type => ?_
          refine (spares_mapM ih).bind fun inner => ?_
          exact (spares_modify _).bind fun _ => spares_pure _

end TableM

namespace ResolveM

variable (id : TypeId)

theorem ask_spares {Result : Type} {question : TypeTable → Except Fault Result}
    (spared : ∀ table, Spared Fault.isMissingEdge (question table)) :
    (ask question).Spares Fault.isMissingEdge :=
  spares_get.bind fun resolver => spares_ofExcept (spared resolver.table)

theorem fetch_spares : (fetch id).Spares Fault.isMissingEdge :=
  ask_spares fun table => table.get_spared id

theorem constituents_spares : (onTable (TableM.constituents id)).Spares Fault.isMissingEdge :=
  (TableM.constituents_spares id).onPart

theorem isTooDeep_spares : (isTooDeep id).Spares Fault.isMissingEdge := by
  refine (fetch_spares id).bind fun type => ?_
  cases type with
  | applied head args =>
      exact Spares.bind (spares_get.bind fun table => TableM.nestingWithin_spares id _).onPart
        fun _ => spares_pure _
  | _ => exact spares_pure _

theorem search_spares {visit : Nat → TypeId → ResolveM (Option (List TypeId))} {fuel : Nat}
    (visits : ∀ less < fuel, ∀ id, (visit less id).Spares Fault.isMissingEdge) (seen pending : List TypeId) :
    (search visit fuel seen pending).Spares Fault.isMissingEdge := by
  induction fuel generalizing seen pending with
  | zero => exact spares_throw rfl
  | succ fuel ih =>
      have rest := ih fun less bound => visits less (by omega)
      cases pending with
      | nil => exact spares_pure _
      | cons id pending =>
          rw [search]
          split
          · exact rest _ _
          · refine (visits fuel (by omega) id).bind fun found => ?_
            cases found with
            | none => exact spares_pure _
            | some next => exact rest _ _

theorem visitForGrowth_spares (head : TypeId) {fuel : Nat}
    (judges : ∀ other, (growsForever fuel other).Spares Fault.isMissingEdge) :
    (visitForGrowth head fuel id).Spares Fault.isMissingEdge := by
  have follows : (isFollowed head fuel id).Spares Fault.isMissingEdge := by
    refine (fetch_spares id).bind fun type => ?_
    cases type with
    | applied other args =>
        dsimp only
        split
        · exact spares_pure _
        · refine spares_get.bind fun resolver => ?_
          split
          · exact spares_pure _
          · exact (judges id).bind fun _ => spares_pure _
    | _ => exact spares_pure _
  refine follows.bind fun followed => ?_
  split
  · refine (isTooDeep_spares id).bind fun deep => ?_
    split
    · exact spares_pure _
    · exact (constituents_spares id).bind fun _ => spares_pure _
  · exact spares_pure _

theorem growsForever_spares (fuel : Nat) : (growsForever fuel id).Spares Fault.isMissingEdge := by
  induction fuel using Nat.strongRecOn generalizing id with
  | ind fuel ih =>
      cases fuel with
      | zero => exact spares_throw rfl
      | succ fuel =>
          unfold growsForever
          refine (ask_spares fun table => table.head?_spared id).bind fun head => ?_
          cases head with
          | none => exact spares_pure _
          | some head =>
              refine (fetch_spares head).bind fun type => ?_
              split
              · exact spares_pure _
              · refine spares_get.bind fun resolver => ?_
                split
                · exact spares_pure _
                · refine (spares_modify _).bind fun _ => ?_
                  refine Spares.bind (Spares.andFinally ?_) fun _ =>
                    (spares_modify _).bind fun _ => spares_pure _
                  rw [searchGrowth_eq_search]
                  exact search_spares (fun less bound other => visitForGrowth_spares other head (ih less (by omega)))
                    _ _

theorem byValueParts_spares (fuel : Nat) : (byValueParts fuel id).Spares Fault.isMissingEdge := by
  refine (growsForever_spares id fuel).bind fun grows => ?_
  split
  · exact spares_pure _
  · refine (fetch_spares id).bind fun type => ?_
    split
    · exact (constituents_spares id).bind fun _ => spares_pure _
    · exact spares_pure _

theorem explore_spares (fuel : Nat) : (explore fuel id).Spares Fault.isMissingEdge := by
  induction fuel generalizing id with
  | zero => exact spares_throw rfl
  | succ fuel ih =>
      refine (spares_modify _).bind fun _ => (byValueParts_spares id fuel).bind fun parts => ?_
      refine (spares_modify _).bind fun _ => Spares.bind (spares_forM fun part => ?_) fun _ => spares_modify _
      refine spares_get.bind fun resolver => ?_
      split
      · exact ih part
      · exact spares_pure _

theorem reportGrowth_spares : (reportGrowth id).Spares Fault.isMissingEdge := by
  refine spares_get.bind fun resolver => ?_
  split
  · refine (spares_modify _).bind fun _ => ?_
    refine (ask_spares fun table => table.spellWithin_spared id _).bind fun _ => ?_
    exact (ask_spares fun table => table.declaredAt_spared id).bind fun _ => spares_modify _
  · exact spares_pure _

theorem reportCycle_spares (cycle : List TypeId) : (reportCycle id cycle).Spares Fault.isMissingEdge := by
  refine spares_get.bind fun resolver => ?_
  split
  · refine (spares_modify _).bind fun _ => ?_
    refine (spares_mapM fun member => ask_spares fun table => table.spellWithin_spared member _).bind fun _ => ?_
    exact (ask_spares fun table => table.declaredAt_spared id).bind fun _ => spares_modify _
  · exact spares_pure _

theorem isUnresolvable_spares (fuel : Nat) : (isUnresolvable fuel id).Spares Fault.isMissingEdge := by
  refine (growsForever_spares id fuel).bind fun grows => ?_
  split
  · refine (ask_spares fun table => table.head?_spared id).bind fun _ => ?_
    exact (reportGrowth_spares _).bind fun _ => spares_pure _
  · refine Spares.bind ?_ fun _ => spares_get.bind fun resolver => ?_
    · refine spares_get.bind fun resolver => ?_
      split
      · exact (explore_spares id fuel).andFinally
      · exact spares_pure _
    · split
      · exact (reportCycle_spares id _).bind fun _ => spares_pure _
      · exact spares_pure _

variable (hooks : Registry) (kind : OpKind)

theorem relevantSlots_spares : (relevantSlots id kind).Spares Fault.isMissingEdge := by
  refine (fetch_spares id).bind fun type => ?_
  split
  · exact constituents_spares id
  · exact spares_pure _

theorem known?_spares : (known? id kind).Spares Fault.isMissingEdge :=
  spares_get.bind fun _ => spares_pure _

theorem visitForHook_spares (fuel : Nat) : (visitForHook hooks kind fuel id).Spares Fault.isMissingEdge := by
  refine (isUnresolvable_spares id fuel).bind fun unresolvable => ?_
  split
  · exact spares_pure _
  · refine (known?_spares id kind).bind fun outcome => ?_
    cases outcome with
    | some outcome => exact spares_pure _
    | none =>
        refine (ask_spares fun table => table.governingHook?_spared id hooks kind).bind fun entry => ?_
        split
        · exact spares_pure _
        · exact (relevantSlots_spares id kind).bind fun _ => spares_pure _

theorem reachesHook_spares (fuel : Nat) : (reachesHook hooks fuel id kind).Spares Fault.isMissingEdge := by
  refine (known?_spares id kind).bind fun known => ?_
  cases known with
  | some outcome => exact spares_pure _
  | none =>
      dsimp only
      rw [searchHook_eq_search]
      exact search_spares (fun less _ other => visitForHook_spares other hooks kind less) _ _

theorem determine_spares (fuel : Nat) : (determine hooks fuel id kind).Spares Fault.isMissingEdge := by
  refine (isUnresolvable_spares id fuel).bind fun unresolvable => ?_
  split
  · exact spares_pure _
  · refine (ask_spares fun table => table.governingHook?_spared id hooks kind).bind fun entry => ?_
    cases entry with
    | some entry => exact spares_pure _
    | none =>
        refine (relevantSlots_spares id kind).bind fun slots => ?_
        split
        · exact spares_pure _
        · refine (reachesHook_spares id hooks kind fuel).bind fun reaches => ?_
          split
          · exact (spares_filterM fun (slot : Slot) => reachesHook_spares slot.type hooks kind fuel).bind
              fun _ => spares_pure _
          · exact spares_pure _

theorem resolve_spares (fuel : Nat) : (resolve hooks fuel id kind).Spares Fault.isMissingEdge := by
  unfold resolve
  split
  · exact spares_throw rfl
  · refine (known?_spares id kind).bind fun known => ?_
    cases known with
    | some outcome => exact spares_pure _
    | none =>
        exact (determine_spares id hooks kind fuel).bind fun _ => (spares_modify _).bind fun _ => spares_pure _

theorem convertedPlace_spares (place : String) : (convertedPlace id place).Spares Fault.isMissingEdge :=
  (ask_spares fun table => table.spellWithin_spared id _).bind fun _ => spares_pure _

theorem slotPlace_spares (slot : Slot) (place : String) : (slotPlace slot place).Spares Fault.isMissingEdge := by
  unfold slotPlace
  split
  · exact spares_pure _
  · exact spares_pure _
  · exact spares_pure _
  · exact convertedPlace_spares _ _
  · exact convertedPlace_spares _ _
  · exact convertedPlace_spares _ _

theorem destroyedBase?_spares (fuel : Nat) : (destroyedBase? hooks fuel id kind).Spares Fault.isMissingEdge := by
  cases kind with
  | destroy =>
      refine Spares.bind (TableM.body_spares id).onPart fun body => ?_
      split
      · refine (resolve_spares _ hooks .destroy fuel).bind fun operation => ?_
        split
        · exact spares_pure _
        · exact spares_pure _
      · exact spares_pure _
  | _ => exact spares_pure _

theorem expandWithin_spares (fuel : Nat) (active : List TypeId) (place : String) :
    (expandWithin hooks kind fuel active id place).Spares Fault.isMissingEdge := by
  induction fuel generalizing active id place with
  | zero => exact spares_throw rfl
  | succ fuel ih =>
      unfold expandWithin
      refine (resolve_spares id hooks kind fuel).bind fun operation => ?_
      cases operation.outcome with
      | builtIn => exact spares_pure _
      | overridden entry =>
          refine (destroyedBase?_spares id hooks kind fuel).bind fun base => ?_
          cases base with
          | none => exact spares_pure _
          | some base =>
              dsimp only
              split
              · exact spares_pure _
              · refine (convertedPlace_spares base place).bind fun basePlace => ?_
                exact (ih base (id :: active) basePlace).bind fun _ => spares_pure _
      | lifted steps =>
          dsimp only
          split
          · exact spares_pure _
          · refine (spares_mapM fun slot => ?_).bind fun _ => spares_pure _
            split
            · exact (spares_mapM fun _ => ih _ _ _).bind fun _ => spares_pure _
            · exact (ih _ _ _).bind fun _ => spares_pure _
            · exact (slotPlace_spares slot place).bind fun slotPlace => ih _ _ slotPlace

theorem scheduleLocal_spares (fuel : Nat) (declared : Local) :
    (scheduleLocal hooks fuel declared).Spares Fault.isMissingEdge := by
  refine (resolve_spares declared.type hooks .destroy fuel).bind fun operation => ?_
  split
  · exact spares_pure _
  · exact (expandWithin_spares declared.type hooks .destroy fuel [] declared.name).bind fun _ => spares_pure _

theorem scheduleEdge_spares (fuel : Nat) (graph : ScopeGraph) (edge : ExitEdge) :
    (scheduleEdge hooks fuel graph edge).Spares Fault.isMissingEdge := by
  have live (scope : ScopeId) : Spared Fault.isMissingEdge (graph.liveLocals edge scope) := by
    unfold ScopeGraph.liveLocals ScopeGraph.scope
    cases graph.scope? scope with
    | some found => exact spared_ok _
    | none => exact spared_error rfl
  refine (spares_mapM fun scope => ?_).bind fun _ => spares_pure _
  refine (spares_ofExcept (live scope)).bind fun locals => ?_
  exact spares_filterMapM fun declared => scheduleLocal_spares hooks fuel declared

/-- In a graph that passes the check no edge is missed. -/
theorem schedule_spares {graph : ScopeGraph} (verified : graph.verify = .ok ()) (fuel : Nat) :
    (schedule hooks fuel graph).Spares Fault.isMissingEdge := by
  have passes : Spared Fault.isMissingEdge graph.verify := verified ▸ spared_ok ()
  refine (spares_ofExcept passes).bind fun _ => (spares_mapM fun edge => ?_).bind fun _ => spares_pure _
  exact (scheduleEdge_spares hooks fuel graph edge).bind fun _ => spares_pure _

end ResolveM
end LifecycleHooks

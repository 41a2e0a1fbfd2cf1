import LifecycleHooks.Proofs.Budget
import LifecycleHooks.Proofs.Lifting.Queries

/-!
# Larger budgets never change an answer

The budget of a query only bounds how long the query may take.  Whatever is answered
within one budget is answered, and answered the same, within every larger one.
-/

namespace LifecycleHooks
namespace ResolveM

open Attempt

theorem search_refines {visit : Nat → TypeId → ResolveM (Option (List TypeId))} {fuel more : Nat}
    (enough : fuel ≤ more)
    (visits : ∀ less < fuel, ∀ larger, less ≤ larger → ∀ id, (visit less id).Refines (visit larger id))
    (seen pending : List TypeId) :
    (search visit fuel seen pending).Refines (search visit more seen pending) := by
  induction fuel generalizing more seen pending with
  | zero => exact refines_throw _ _
  | succ fuel ih =>
      obtain ⟨more, rfl⟩ : ∃ less, more = less + 1 := ⟨more - 1, by omega⟩
      have rest (seen pending : List TypeId) :
          (search visit fuel seen pending).Refines (search visit more seen pending) :=
        ih (by omega) (fun less bound => visits less (by omega)) seen pending
      cases pending with
      | nil => exact Refines.refl _
      | cons id pending =>
          rw [search, search]
          split
          · exact rest seen pending
          · apply (visits fuel (by omega) more (by omega) id).bind
            intro found
            cases found with
            | none => exact Refines.refl _
            | some next => exact rest (id :: seen) (next ++ pending)

theorem visitForGrowth_refines {fuel more : Nat}
    (judges : ∀ id, (growsForever fuel id).Refines (growsForever more id)) (head id : TypeId) :
    (visitForGrowth head fuel id).Refines (visitForGrowth head more id) := by
  have follows : (isFollowed head fuel id).Refines (isFollowed head more id) := by
    apply (Refines.refl _).bind
    intro type
    cases type with
    | applied other args =>
        change Refines (if other = head then _ else _) (if other = head then _ else _)
        split
        · exact Refines.refl _
        · apply (Refines.refl _).bind
          intro resolver
          split
          · exact Refines.refl _
          · exact (judges id).bind fun _ => Refines.refl _
    | _ => exact Refines.refl _
  exact follows.bind fun _ => Refines.refl _

theorem growsForever_steady (id : TypeId) : Steady fun fuel => growsForever fuel id := by
  intro fuel more enough
  induction fuel using Nat.strong_induction_on generalizing more id with
  | h fuel ih =>
      cases fuel with
      | zero => exact refines_throw _ _
      | succ fuel =>
          obtain ⟨more, rfl⟩ : ∃ less, more = less + 1 := ⟨more - 1, by omega⟩
          unfold growsForever
          apply (Refines.refl _).bind
          intro head
          cases head with
          | none => exact Refines.refl _
          | some head =>
              apply (Refines.refl _).bind
              intro type
              split
              · exact Refines.refl _
              · apply (Refines.refl _).bind
                intro resolver
                split
                · exact Refines.refl _
                · apply (Refines.refl _).bind
                  intro _
                  have searches : (searchGrowth fuel head [] [head]).Refines
                      (searchGrowth more head [] [head]) := by
                    rw [searchGrowth_eq_search, searchGrowth_eq_search]
                    refine search_refines (by omega) (fun less bound larger above other => ?_) _ _
                    exact visitForGrowth_refines (fun third => ih less (by omega) third larger above)
                      head other
                  exact (searches.andFinally _).bind fun _ => Refines.refl _

theorem byValueParts_steady (id : TypeId) : Steady fun fuel => byValueParts fuel id :=
  fun fuel more enough => (growsForever_steady id fuel more enough).bind fun _ => Refines.refl _

theorem explore_steady (id : TypeId) : Steady fun fuel => explore fuel id := by
  intro fuel more enough
  induction fuel generalizing more id with
  | zero => exact refines_throw _ _
  | succ fuel ih =>
      obtain ⟨more, rfl⟩ : ∃ less, more = less + 1 := ⟨more - 1, by omega⟩
      unfold explore
      apply (Refines.refl _).bind
      intro _
      apply (byValueParts_steady id fuel more (by omega)).bind
      intro parts
      apply (Refines.refl _).bind
      intro _
      refine (refines_forM fun part _ => ?_).bind fun _ => Refines.refl _
      apply (Refines.refl _).bind
      intro resolver
      split
      · exact ih part more (by omega)
      · exact Refines.refl _

theorem isUnresolvable_steady (id : TypeId) : Steady fun fuel => isUnresolvable fuel id := by
  intro fuel more enough
  have explores : (exploreOnce fuel id).Refines (exploreOnce more id) := by
    apply (Refines.refl _).bind
    intro resolver
    split
    · exact (explore_steady id fuel more enough).andFinally _
    · exact Refines.refl _
  apply (growsForever_steady id fuel more enough).bind
  intro grows
  split
  · exact Refines.refl _
  · exact explores.bind fun _ => Refines.refl _

theorem visitForHook_steady (hooks : Registry) (kind : OpKind) (id : TypeId) :
    Steady fun fuel => visitForHook hooks kind fuel id :=
  fun fuel more enough => (isUnresolvable_steady id fuel more enough).bind fun _ => Refines.refl _

theorem reachesHook_steady (hooks : Registry) (id : TypeId) (kind : OpKind) :
    Steady fun fuel => reachesHook hooks fuel id kind := by
  intro fuel more enough
  apply (Refines.refl _).bind
  intro known
  cases known with
  | some outcome => exact Refines.refl _
  | none =>
      dsimp only
      rw [searchHook_eq_search, searchHook_eq_search]
      exact search_refines enough
        (fun less _ larger above other => visitForHook_steady hooks kind other less larger above) _ _

theorem determine_steady (hooks : Registry) (id : TypeId) (kind : OpKind) :
    Steady fun fuel => determine hooks fuel id kind := by
  intro fuel more enough
  apply (isUnresolvable_steady id fuel more enough).bind
  intro unresolvable
  split
  · exact Refines.refl _
  · apply (Refines.refl _).bind
    intro entry
    cases entry with
    | some entry => exact Refines.refl _
    | none =>
        apply (Refines.refl _).bind
        intro slots
        split
        · exact Refines.refl _
        · apply (reachesHook_steady hooks id kind fuel more enough).bind
          intro reaches
          split
          · exact (refines_filterM fun slot _ =>
              reachesHook_steady hooks slot.type kind fuel more enough).bind fun _ => Refines.refl _
          · exact Refines.refl _

theorem resolve_steady (hooks : Registry) (id : TypeId) (kind : OpKind) :
    Steady fun fuel => resolve hooks fuel id kind := by
  intro fuel more enough
  unfold resolve
  dsimp only
  split
  · exact Refines.refl _
  · apply (Refines.refl _).bind
    intro known
    cases known with
    | some outcome => exact Refines.refl _
    | none => exact (determine_steady hooks id kind fuel more enough).bind fun _ => Refines.refl _

theorem operationTable_steady (hooks : Registry) (ids : List TypeId) :
    Steady fun fuel => operationTable hooks fuel ids := by
  intro fuel more enough
  refine refines_mapM fun id _ => ?_
  exact (refines_mapM fun kind _ => resolve_steady hooks id kind fuel more enough).bind
    fun _ => Refines.refl _

theorem destroyedBase?_steady (hooks : Registry) (id : TypeId) (kind : OpKind) :
    Steady fun fuel => destroyedBase? hooks fuel id kind := by
  intro fuel more enough
  cases kind with
  | destroy =>
      apply (Refines.refl _).bind
      intro body
      cases body.base with
      | some base => exact (resolve_steady hooks base .destroy fuel more enough).bind fun _ => Refines.refl _
      | none => exact Refines.refl _
  | _ => exact Refines.refl _

theorem expandWithin_steady (hooks : Registry) (kind : OpKind) (active : List TypeId) (id : TypeId)
    (place : String) : Steady fun fuel => expandWithin hooks kind fuel active id place := by
  intro fuel more enough
  induction fuel generalizing more active id place with
  | zero => exact refines_throw _ _
  | succ fuel ih =>
      obtain ⟨more, rfl⟩ : ∃ less, more = less + 1 := ⟨more - 1, by omega⟩
      have less : fuel ≤ more := by omega
      unfold expandWithin
      apply (resolve_steady hooks id kind fuel more less).bind
      intro operation
      cases operation.outcome with
      | builtIn => exact Refines.refl _
      | overridden entry =>
          apply (destroyedBase?_steady hooks id kind fuel more less).bind
          intro base
          cases base with
          | none => exact Refines.refl _
          | some base =>
              dsimp only
              split
              · exact Refines.refl _
              · apply (Refines.refl _).bind
                intro basePlace
                exact (ih (id :: active) base basePlace more less).bind fun _ => Refines.refl _
      | lifted steps =>
          dsimp only
          split
          · exact Refines.refl _
          · refine (refines_mapM fun slot _ => ?_).bind fun _ => Refines.refl _
            split
            · exact (refines_mapM fun _ _ => ih _ _ _ more less).bind fun _ => Refines.refl _
            · exact (ih _ _ _ more less).bind fun _ => Refines.refl _
            · apply (Refines.refl _).bind
              intro slotPlace
              exact ih _ _ slotPlace more less

theorem ownsStorage_steady (id : TypeId) : Steady fun fuel => ownsStorage fuel id := by
  intro fuel more enough
  unfold ownsStorage
  dsimp only
  rw [searchStorage_eq_search, searchStorage_eq_search]
  refine search_refines enough (fun less _ larger above other => ?_) _ _
  exact (isUnresolvable_steady other less larger above).bind fun _ => Refines.refl _

theorem copyWithin_steady (hooks : Registry) (active : List TypeId) (id : TypeId) (place : String) :
    Steady fun fuel => copyWithin hooks fuel active id place := by
  intro fuel more enough
  induction fuel generalizing more active id place with
  | zero => exact refines_throw _ _
  | succ fuel ih =>
      obtain ⟨more, rfl⟩ : ∃ less, more = less + 1 := ⟨more - 1, by omega⟩
      have less : fuel ≤ more := by omega
      unfold copyWithin
      apply (isUnresolvable_steady id fuel more less).bind
      intro unresolvable
      split
      · exact Refines.refl _
      · apply (resolve_steady hooks id .deepCopy fuel more less).bind
        intro operation
        cases operation.outcome with
        | overridden entry => exact Refines.refl _
        | _ =>
            apply (Refines.refl _).bind
            intro type
            split
            · apply (ownsStorage_steady id fuel more less).bind
              intro owns
              exact Refines.refl _
            · split
              · exact (ih _ _ _ more less).bind fun _ => Refines.refl _
              · exact (ih _ _ _ more less).bind fun _ => Refines.refl _
              · exact (ih _ _ _ more less).bind fun _ => Refines.refl _
              · apply (Refines.refl _).bind
                intro slots
                refine (refines_mapM fun slot _ => ?_).bind fun _ => Refines.refl _
                split
                · exact (refines_mapM fun _ _ => ih _ _ _ more less).bind fun _ => Refines.refl _
                · exact Refines.refl _
                · apply (Refines.refl _).bind
                  intro slotPlace
                  exact ih _ _ slotPlace more less

end ResolveM

open Attempt ResolveM

theorem Query.ask_steady (hooks : Registry) (query : Query) :
    Steady fun fuel => query.ask hooks fuel := by
  intro fuel more enough
  cases query with
  | isUnresolvable id =>
      exact (isUnresolvable_steady id fuel more enough).bind fun _ => Refines.refl _
  | resolve id kind => exact (resolve_steady hooks id kind fuel more enough).bind fun _ => Refines.refl _
  | operationTable ids =>
      exact (operationTable_steady hooks ids fuel more enough).bind fun _ => Refines.refl _
  | expand id kind place =>
      exact (expandWithin_steady hooks kind [] id place fuel more enough).bind fun _ => Refines.refl _
  | copyPlan id place =>
      exact (copyWithin_steady hooks [] id place fuel more enough).bind fun _ => Refines.refl _

end LifecycleHooks

import LifecycleHooks.Proofs.Lifting.Queries

/-!
# What queries keep of the table

A resolver touches the type table only when it works out the body or the nesting depth of a
type.  What these two questions keep of the table, every query keeps.
-/

namespace LifecycleHooks
namespace ResolveM

open Attempt Resolver

/-- A relation on tables, where they are part of a resolver. -/
def Tables (relation : TypeTable → TypeTable → Prop) (resolver later : Resolver) : Prop :=
  relation resolver.table later.table

instance (relation : TypeTable → TypeTable → Prop) [IsPreorder TypeTable relation] :
    IsPreorder Resolver (Tables relation) where
  refl resolver := refl_of relation resolver.table
  trans _ _ _ first second := trans_of relation first second

variable {relation : TypeTable → TypeTable → Prop} [IsPreorder TypeTable relation]

/-- What is no table does not matter. -/
theorem tables_of_eq {resolver later : Resolver} (same : later.table = resolver.table) :
    Tables relation resolver later := by
  unfold Tables
  rw [same]
  exact refl_of relation resolver.table

omit [IsPreorder TypeTable relation] in
theorem onTable_tables {Result : Type} {action : TableM Result} (keeps : action.Preserves relation) :
    (onTable action).Preserves (Tables relation) :=
  preserves_onPart keeps fun _ _ kept => kept

section Asking

variable (bodies : ∀ id, (TableM.body id).Preserves relation) (nests : ∀ id, (TableM.nesting id).Preserves relation)

include bodies

theorem constituents_tables (id : TypeId) : (onTable (TableM.constituents id)).Preserves (Tables relation) :=
  onTable_tables (TableM.constituents_preserves (bodies id))

include nests

theorem growsForever_tables (fuel : Nat) (id : TypeId) : (growsForever fuel id).Preserves (Tables relation) := by
  induction fuel using Nat.strongRecOn generalizing id with
  | ind fuel ih =>
      cases fuel with
      | zero => exact leads_throw _
      | succ fuel =>
          have searches (head : TypeId) :
              (andFinally (searchGrowth fuel head [] [head]) fun resolver =>
                { resolver with judging := resolver.judging.erase head }).Preserves (Tables relation) := by
            rw [searchGrowth_eq_search]
            have searched : (search (visitForGrowth head) fuel [] [head]).Preserves (Tables relation) :=
              search_leads (fun less bound other => visitForGrowth_leads (fun id => onTable_tables (nests id))
                (constituents_tables bodies) (ih less (by omega)) head other) _ _
            exact preserves_andFinally searched fun _ _ kept => kept
          unfold growsForever
          refine (ask_leads _).bind fun head => ?_
          cases head with
          | none => exact leads_pure _
          | some head =>
              refine (ask_leads _).bind fun type => ?_
              split
              · exact leads_pure _
              · refine leads_get.bind fun resolver => ?_
                split
                · exact leads_pure _
                · refine Leads.bind (leads_modify fun _ => tables_of_eq rfl) fun _ => (searches head).bind fun grows => ?_
                  exact Leads.bind (leads_modify fun _ => tables_of_eq rfl) fun _ => leads_pure _

theorem byValueParts_tables (fuel : Nat) (id : TypeId) : (byValueParts fuel id).Preserves (Tables relation) := by
  refine (growsForever_tables bodies nests fuel id).bind fun grows => ?_
  split
  · exact leads_pure _
  · refine (ask_leads _).bind fun type => ?_
    split
    · exact (constituents_tables bodies id).bind fun _ => leads_pure _
    · exact leads_pure _

theorem explore_tables (fuel : Nat) (id : TypeId) : (explore fuel id).Preserves (Tables relation) := by
  induction fuel generalizing id with
  | zero => exact leads_throw _
  | succ fuel ih =>
      unfold explore
      refine Leads.bind (leads_modify fun _ => tables_of_eq rfl) fun _ => ?_
      refine (byValueParts_tables bodies nests fuel id).bind fun parts => ?_
      refine Leads.bind (leads_modify fun _ => tables_of_eq rfl) fun _ => ?_
      refine Leads.bind ?_ fun _ => leads_modify fun _ => tables_of_eq rfl
      refine leads_forM fun part _ => leads_get.bind fun resolver => ?_
      split
      · exact ih part
      · exact leads_pure _

theorem exploreOnce_tables (fuel : Nat) (id : TypeId) : (exploreOnce fuel id).Preserves (Tables relation) := by
  refine leads_get.bind fun resolver => ?_
  split
  · exact preserves_andFinally (explore_tables bodies nests fuel id) fun _ _ kept => kept
  · exact leads_pure _

/-- What the questions about bodies and nesting depths keep of the table, all queries keep. -/
theorem tables_leadsQueries (hooks : Registry) : LeadsQueries hooks (Tables relation) (Tables relation) := by
  apply leadsQueries_of_verdicts hooks
  · constructor
    case bodies => exact fun id => onTable_tables (bodies id)
    case constituents => exact constituents_tables bodies
    case unresolvable =>
      exact isUnresolvable_leads (fun _ _ => tables_of_eq rfl) (fun _ _ => tables_of_eq rfl)
        (growsForever_tables bodies nests) (exploreOnce_tables bodies nests)
  · exact fun _ _ => tables_of_eq rfl

end Asking
end ResolveM
end LifecycleHooks

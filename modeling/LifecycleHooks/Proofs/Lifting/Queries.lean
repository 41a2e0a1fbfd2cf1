import LifecycleHooks.Proofs.Lifting.Extension

/-!
# Queries

A resolver is asked for the operations of types, for types without finite structure,
for call plans and for copy plans.  Between two queries other users of the type table
may have made new types or worked out bodies.  Whatever was asked before, and whether
or not it was answered, the resolver keeps all it knows.
-/

namespace LifecycleHooks

/-- What a resolver can be asked. -/
inductive Query where
  | isUnresolvable (id : TypeId)
  | resolve (id : TypeId) (kind : OpKind)
  | operationTable (ids : List TypeId)
  | expand (id : TypeId) (kind : OpKind) (place : String)
  | copyPlan (id : TypeId) (place : String)

/-- The types that a query is about. -/
def Query.subjects : Query → List TypeId
  | .isUnresolvable id | .resolve id _ | .expand id _ _ | .copyPlan id _ => [id]
  | .operationTable ids => ids

/-- Keeping a new operation hides none that was known before. -/
theorem Resolver.extends_keep {resolver : Resolver} {key : TypeId × OpKind} {outcome : Outcome}
    (unknown : resolver.operations.lookup key = none) :
    resolver.Extends { resolver with operations := (key, outcome) :: resolver.operations } :=
  { refl_of Resolver.Extends resolver with
    operations := fun other known found => by
      have differ : other ≠ key := by
        rintro rfl
        cases unknown.symm.trans found
      rw [ResolveM.lookup_cons_of_ne differ]
      exact found }

namespace ResolveM

open Attempt Resolver

variable (hooks : Registry)

theorem resolve_extends (fuel : Nat) (id : TypeId) (kind : OpKind) :
    (resolve hooks fuel id kind).Preserves Extends := by
  unfold resolve
  split
  · exact leads_throw _
  · refine preserves_iff.mpr fun resolver => ?_
    rw [finish_known?_bind]
    split
    · exact Extends.refl resolver
    · rename_i unknown
      refine finish_bind (fun _ middle run => ?_) fun outcome middle run => ?_
      · exact ((determine_consults hooks fuel id kind).of_error run).toExtends
      · have consults := (determine_consults hooks fuel id kind).of_ok run
        have stillUnknown := consults.unresolved ▸ unknown
        exact consults.toExtends.trans (extends_keep stillUnknown)

/-- What was resolved is kept. -/
theorem resolve_kept {hooks : Registry} {fuel : Nat} {id : TypeId} {kind : OpKind} {resolver final : Resolver}
    {operation : Operation} (run : resolve hooks fuel id kind resolver = .ok operation final) :
    final.operations.lookup (id, kind) = some operation.outcome ∧
      operation = ⟨id, kind, operation.outcome⟩ := by
  unfold resolve at run
  split at run
  · cases run
  · rw [known?_bind_run] at run
    cases known : resolver.operations.lookup (id, kind) with
    | some outcome =>
        rw [known] at run
        obtain ⟨rfl, rfl⟩ := EStateM.Result.ok.inj run
        exact ⟨known, rfl⟩
    | none =>
        rw [known] at run
        obtain ⟨outcome, determined, _, run⟩ := bind_eq_ok.mp run
        rw [modify_bind_run] at run
        obtain ⟨rfl, rfl⟩ := EStateM.Result.ok.inj run
        simp

end ResolveM

open ResolveM Attempt Resolver

/-- Relations along which everything leads that the queries are made from. -/
structure LeadsQueries (hooks : Registry) (done failed : Resolver → Resolver → Prop) : Prop extends
    LeadsVerdicts done failed where
  resolves : ∀ fuel id kind, (resolve hooks fuel id kind).Leads done failed

theorem leadsQueries_of_consults {hooks : Registry} {relation : Resolver → Resolver → Prop}
    (consults : ∀ resolver later, Consults resolver later → relation resolver later)
    (resolves : ∀ fuel id kind, (resolve hooks fuel id kind).Preserves relation) :
    LeadsQueries hooks relation relation where
  bodies id := Preserves.mono (consults_leadsVerdicts.bodies id) consults consults
  constituents id := Preserves.mono (consults_leadsVerdicts.constituents id) consults consults
  unresolvable fuel id := (isUnresolvable_consults fuel id).mono consults consults
  resolves := resolves

/-- Where it does not matter which operations are kept, the verdicts are all that leads. -/
theorem leadsQueries_of_verdicts {done failed : Resolver → Resolver → Prop} [IsLead done failed]
    (hooks : Registry) (verdicts : LeadsVerdicts done failed)
    (keeps : ∀ (operations : List ((TypeId × OpKind) × Outcome)) (resolver : Resolver),
      done resolver { resolver with operations := operations }) : LeadsQueries hooks done failed := by
  refine { verdicts with resolves := fun fuel id kind => ?_ }
  unfold resolve
  split
  · exact leads_throw _
  · refine (known?_leads id kind).bind fun known => ?_
    cases known with
    | some outcome => exact leads_pure _
    | none =>
        refine (determine_leads verdicts hooks fuel id kind).bind fun outcome => ?_
        exact (leads_modify fun resolver => keeps _ resolver).bind fun _ => leads_pure _

theorem extends_leadsQueries (hooks : Registry) : LeadsQueries hooks Extends Extends :=
  leadsQueries_of_consults (fun _ _ => Consults.toExtends) (resolve_extends hooks)

namespace ResolveM

section Relations

variable {hooks : Registry} {done failed : Resolver → Resolver → Prop} [IsLead done failed]
  (leads : LeadsQueries hooks done failed)

theorem slotPlace_leads (slot : Slot) (place : String) :
    (slotPlace slot place).Leads done failed := by
  unfold slotPlace
  cases slot.step with
  | field name => exact leads_pure _
  | tupleElement index => exact leads_pure _
  | pointee => exact leads_pure _
  | base => exact (ask_leads _).bind fun _ => leads_pure _
  | underlying => exact (ask_leads _).bind fun _ => leads_pure _
  | element count => exact (ask_leads _).bind fun _ => leads_pure _

include leads

theorem operationTable_leads (fuel : Nat) (ids : List TypeId) :
    (operationTable hooks fuel ids).Leads done failed :=
  leads_mapM fun id _ =>
    (leads_mapM fun kind _ => leads.resolves fuel id kind).bind fun _ => leads_pure _

theorem destroyedBase?_leads (fuel : Nat) (id : TypeId) (kind : OpKind) :
    (destroyedBase? hooks fuel id kind).Leads done failed := by
  cases kind with
  | destroy =>
      refine (leads.bodies id).bind fun body => ?_
      cases body.base with
      | some base =>
          refine (leads.resolves fuel base .destroy).bind fun operation => ?_
          split <;> exact leads_pure _
      | none => exact leads_pure _
  | _ => exact leads_pure _

theorem expandWithin_leads (kind : OpKind) (fuel : Nat) (active : List TypeId) (id : TypeId)
    (place : String) : (expandWithin hooks kind fuel active id place).Leads done failed := by
  induction fuel generalizing active id place with
  | zero => exact leads_throw _
  | succ fuel ih =>
      refine (leads.resolves fuel id kind).bind fun operation => ?_
      cases operation.outcome with
      | builtIn => exact leads_pure _
      | overridden entry =>
          refine (destroyedBase?_leads leads fuel id kind).bind fun base => ?_
          cases base with
          | none => exact leads_pure _
          | some base =>
              dsimp only
              split
              · exact leads_pure _
              · exact ((ask_leads _).bind fun _ => leads_pure _).bind fun _ =>
                  (ih _ base _).bind fun _ => leads_pure _
      | lifted steps =>
          dsimp only
          split
          · exact leads_pure _
          · refine (leads_mapM fun slot _ => ?_).bind fun _ => leads_pure _
            split
            · exact (leads_mapM fun _ _ => ih _ _ _).bind fun _ => leads_pure _
            · exact (ih _ _ _).bind fun _ => leads_pure _
            · exact (slotPlace_leads slot place).bind fun _ => ih _ _ _

theorem ownsStorage_leads (fuel : Nat) (id : TypeId) :
    (ownsStorage fuel id).Leads done failed := by
  unfold ownsStorage
  rw [searchStorage_eq_search]
  exact search_leads (fun less _ id => visitForStorage_leads leads.toLeadsVerdicts less id) _ _

theorem copyWithin_leads (fuel : Nat) (active : List TypeId) (id : TypeId) (place : String) :
    (copyWithin hooks fuel active id place).Leads done failed := by
  induction fuel generalizing active id place with
  | zero => exact leads_throw _
  | succ fuel ih =>
      unfold copyWithin
      refine (leads.unresolvable fuel id).bind fun unresolvable => ?_
      split
      · exact leads_pure _
      · refine (leads.resolves fuel id .deepCopy).bind fun operation => ?_
        cases operation.outcome with
        | overridden entry => exact leads_pure _
        | _ =>
            refine (ask_leads _).bind fun type => ?_
            split
            · refine (ownsStorage_leads leads fuel id).bind fun owns => ?_
              split <;> exact leads_pure _
            · split
              · exact (ih _ _ _).bind fun _ => leads_pure _
              · exact (ih _ _ _).bind fun _ => leads_pure _
              · exact (ih _ _ _).bind fun _ => leads_pure _
              · refine (leads.constituents id).bind fun slots => ?_
                refine (leads_mapM fun slot _ => ?_).bind fun _ => leads_pure _
                split
                · exact (leads_mapM fun _ _ => ih _ _ _).bind fun _ => leads_pure _
                · exact leads_pure _
                · exact (slotPlace_leads slot place).bind fun _ => ih _ _ _

end Relations
end ResolveM

namespace Query

open ResolveM Attempt Resolver

/-- Ask a query; only what the resolver learns from it is of interest. -/
def ask (hooks : Registry) (fuel : Nat) : Query → ResolveM Unit
  | .isUnresolvable id => do let _ ← ResolveM.isUnresolvable fuel id
  | .resolve id kind => do let _ ← ResolveM.resolve hooks fuel id kind
  | .operationTable ids => do let _ ← ResolveM.operationTable hooks fuel ids
  | .expand id kind place => do let _ ← ResolveM.expand hooks fuel id kind place
  | .copyPlan id place => do let _ ← ResolveM.copyPlan hooks fuel id place

theorem ask_leads {hooks : Registry} {done failed : Resolver → Resolver → Prop}
    [IsLead done failed] (leads : LeadsQueries hooks done failed) (fuel : Nat) (query : Query) :
    (query.ask hooks fuel).Leads done failed := by
  cases query with
  | isUnresolvable id => exact (leads.unresolvable fuel id).bind fun _ => leads_pure _
  | resolve id kind => exact (leads.resolves fuel id kind).bind fun _ => leads_pure _
  | operationTable ids => exact (operationTable_leads leads fuel ids).bind fun _ => leads_pure _
  | expand id kind place =>
      exact (expandWithin_leads leads kind fuel [] id place).bind fun _ => leads_pure _
  | copyPlan id place => exact (copyWithin_leads leads fuel [] id place).bind fun _ => leads_pure _

end Query

namespace Resolver

open Attempt

/-- The states that a resolver can be in after any queries, answered or not. -/
inductive Reached (hooks : Registry) (resolver : Resolver) : Resolver → Prop where
  | start : Reached hooks resolver resolver
  /-- A query is asked. -/
  | asked {later : Resolver} (earlier : Reached hooks resolver later) (fuel : Nat)
      (query : Query) : Reached hooks resolver ((query.ask hooks fuel).finish later)
  /-- Other users of the table extend it. -/
  | shared {later : Resolver} (earlier : Reached hooks resolver later) {larger : TypeTable}
      (extends_ : later.table.Extends larger) :
      Reached hooks resolver { later with table := larger }

theorem consults_table {resolver : Resolver} {larger : TypeTable}
    (extends_ : resolver.table.Extends larger) : resolver.Consults { resolver with table := larger } :=
  { refl_of Consults resolver with table := extends_ }

theorem Reached.preserves {hooks : Registry} {relation : Resolver → Resolver → Prop}
    [IsPreorder Resolver relation]
    (consults : ∀ resolver later, Consults resolver later → relation resolver later)
    (resolves : ∀ fuel id kind, (ResolveM.resolve hooks fuel id kind).Preserves relation)
    {resolver later : Resolver} (reached : Reached hooks resolver later) :
    relation resolver later := by
  induction reached with
  | start => exact refl_of relation resolver
  | asked earlier fuel query ih =>
      have asks : (query.ask hooks fuel).Preserves relation :=
        query.ask_leads (leadsQueries_of_consults consults resolves) fuel
      exact trans_of relation ih (asks.finish _)
  | shared earlier extends_ ih =>
      exact trans_of relation ih (consults _ _ (consults_table extends_))

theorem Reached.extends_ {hooks : Registry} {resolver later : Resolver}
    (reached : Reached hooks resolver later) : resolver.Extends later :=
  reached.preserves (fun _ _ => Consults.toExtends) (ResolveM.resolve_extends hooks)

end Resolver
end LifecycleHooks

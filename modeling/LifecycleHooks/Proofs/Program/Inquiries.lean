import LifecycleHooks.Proofs.Procedure.Context
import LifecycleHooks.Proofs.Program.Runs

/-!
# What an analysis asks

An analysis asks a resolver for the operations of declared types, for those of locals and of
values in the bodies, and for the plans of destructions and of copies.  A relation along which
each query leads is therefore one along which the whole analysis leads, whether or not it comes
to an end.
-/

namespace LifecycleHooks

open Attempt Resolver

namespace ResolveM

section Leading

variable {hooks : Registry} {fuel : Nat} {done failed : Resolver → Resolver → Prop} [IsLead done failed]
  (leads : LeadsQueries hooks done failed)

include leads

theorem checkBlock_leads (policy : ContextPolicy) (sites : Sites) (block : Block) :
    (checkBlock hooks fuel policy sites block).Leads done failed := by
  unfold checkBlock
  rw [filterMapM_eq]
  refine (leads_mapM fun expr _ => ?_).bind fun _ => leads_pure _
  unfold checkExpr
  split
  · exact leads_pure _
  · split
    · exact leads_pure _
    · refine ((leads.resolves fuel _ .destroy).bind fun _ => leads_pure _).bind fun runs => ?_
      split
      · dsimp only
        split
        · exact leads_pure _
        · exact ((ask_leads _).bind fun _ => leads_pure _).bind fun _ => leads_pure _
      · exact leads_pure _

theorem handOffBlock_leads (block : Block) : (handOffBlock hooks fuel block).Leads done failed := by
  refine (leads_mapM fun spawn _ => ?_).bind fun _ => leads_pure _
  unfold handOffSpawn
  rw [filterMapM_eq]
  refine (leads_mapM fun (arg, index) _ => ?_).bind fun _ => leads_pure _
  dsimp only
  unfold handOff
  split
  · exact leads_pure _
  · exact (leads.resolves fuel _ .deepCopy).bind fun _ =>
      (copyWithin_leads leads fuel [] _ _).bind fun _ => leads_pure _

end Leading

variable {hooks : Registry} {fuel : Nat} {policy : ContextPolicy} {relation : Resolver → Resolver → Prop}
  [IsPreorder Resolver relation]

/-- A schedule that fails does not undo what the resolver learned for it. -/
theorem analyzeProcedures_preserves (leads : LeadsQueries hooks relation relation) (progress : Progress)
    (procedures : List LoweredProcedure) :
    (analyzeProcedures hooks fuel policy progress procedures).Preserves relation := by
  induction procedures generalizing progress with
  | nil => exact leads_get.bind fun _ => leads_pure _
  | cons lowered rest ih =>
      refine (checkBlock_leads leads _ _ _).bind fun misplaced => (leads_ofExcept _).bind fun graph =>
        (preserves_outcome (schedule_leads leads graph)).bind fun outcome => ?_
      cases outcome with
      | ok schedule => exact (handOffBlock_leads leads _).bind fun _ => ih _
      | error fault =>
          cases fault with
          | missingExitEdge name defect => exact leads_get.bind fun _ => leads_pure _
          | _ => exact leads_throw _

/-- What was found about a procedure: its scope graph was scheduled, then its spawns were handed
over, and the resolver went on from there. -/
def Analyzes (hooks : Registry) (fuel : Nat) (relation : Resolver → Resolver → Prop) (final : Resolver)
    (lowered : LoweredProcedure) (analysis : ProcedureAnalysis) : Prop :=
  analysis.lowered = lowered ∧ ∃ graph before middle after,
    lowered.procedure.scopeGraph lowered.bindingTypes = .ok graph ∧
      schedule hooks fuel graph before = .ok analysis.schedule middle ∧
      handOffBlock hooks fuel lowered.procedure.body middle = .ok analysis.handoffs after ∧ relation after final

/-- When no scope graph is reported to be incomplete, every procedure was analysed. -/
theorem analyzeProcedures_analyzes (leads : LeadsQueries hooks relation relation) {progress found : Progress}
    {procedures : List LoweredProcedure} {resolver final : Resolver}
    (run : analyzeProcedures hooks fuel policy progress procedures resolver = .ok found final)
    (reported : ∀ diagnostic ∈ found.diagnostics, ¬ diagnostic.IsInternal) :
    ∃ analyses, found.procedures = progress.procedures ++ analyses ∧
      List.Forall₂ (Analyzes hooks fuel relation final) procedures analyses := by
  induction procedures generalizing progress resolver with
  | nil =>
      obtain ⟨rfl, rfl⟩ := EStateM.Result.ok.inj run
      exact ⟨[], by simp, .nil⟩
  | cons lowered rest ih =>
      obtain ⟨misplaced, first, checked, walking⟩ := bind_eq_ok.mp run
      obtain ⟨graph, second, walked, scheduling⟩ := bind_eq_ok.mp walking
      obtain ⟨isGraph, rfl⟩ := ofExcept_eq_ok.mp walked
      obtain ⟨outcome, third, scheduling, others⟩ := bind_eq_ok.mp scheduling
      cases outcome with
      | ok schedule =>
          obtain ⟨handoffs, fourth, handing, others⟩ := bind_eq_ok.mp others
          obtain ⟨analyses, procedures, each⟩ := ih others
          have onwards : relation fourth final := (analyzeProcedures_preserves leads _ _).of_ok others
          refine ⟨⟨lowered, lowered.procedure.sites, schedule, handoffs⟩ :: analyses, ?_,
            .cons ⟨rfl, graph, second, third, fourth, isGraph, outcome_eq_ok scheduling, handing, onwards⟩ each⟩
          rw [procedures, List.append_assoc]
          rfl
      | error fault =>
          cases fault with
          | missingExitEdge name defect =>
              obtain ⟨rfl, rfl⟩ := EStateM.Result.ok.inj others
              exact absurd rfl (reported (brokenGraph lowered.procedure (.missingExitEdge name defect)) (by simp))
          | _ => cases others

/-- A resolver reports only what has to do with types without a finite structure, and an analysis
reports nothing of that kind besides. -/
theorem analyzeProcedures_reports {progress found : Progress} {procedures : List LoweredProcedure}
    {resolver final : Resolver} {diagnostic : Diagnostic}
    (run : analyzeProcedures hooks fuel policy progress procedures resolver = .ok found final)
    (tells : diagnostic.code = some .unresolvableRecursion) (member : diagnostic ∈ found.diagnostics) :
    diagnostic ∈ progress.diagnostics ∨ diagnostic ∈ final.diagnostics := by
  induction procedures generalizing progress resolver with
  | nil =>
      obtain ⟨rfl, rfl⟩ := EStateM.Result.ok.inj run
      exact List.mem_append.mp member
  | cons lowered rest ih =>
      obtain ⟨misplaced, first, checked, walking⟩ := bind_eq_ok.mp run
      obtain ⟨graph, second, walked, scheduling⟩ := bind_eq_ok.mp walking
      obtain ⟨outcome, third, scheduling, others⟩ := bind_eq_ok.mp scheduling
      have notMisplaced : diagnostic ∉ misplaced := by
        intro isMisplaced
        obtain ⟨each, checks, rfl⟩ := checkBlock_eq_ok.mp checked
        obtain ⟨expr, -, reports⟩ := TypeTree.exists_of_mem_forall₂ (checkExprs_reports checks) diagnostic isMisplaced
        cases tells.symm.trans reports.1
      cases outcome with
      | ok schedule =>
          obtain ⟨handoffs, fourth, handing, others⟩ := bind_eq_ok.mp others
          refine (ih others).imp_left fun before => ?_
          exact (List.mem_append.mp before).resolve_right notMisplaced
      | error fault =>
          cases fault with
          | missingExitEdge name defect =>
              obtain ⟨rfl, rfl⟩ := EStateM.Result.ok.inj others
              simp only [List.mem_append, List.mem_singleton] at member
              rcases member with ((before | isMisplaced) | resolved) | rfl
              · exact .inl before
              · exact absurd isMisplaced notMisplaced
              · exact .inr resolved
              · cases tells
          | _ => cases others

end ResolveM

namespace ProgramAnalysis

/-- The analysis of a program, or one of nothing if it has none. -/
def found (file : Option String) (fuel : Nat) (policy : ContextPolicy) (surface : Surface.Program) : ProgramAnalysis :=
  (ofProgram file fuel policy surface).toOption.getD ⟨⟨{}, [], [], [], []⟩, {}, {}, [], [], []⟩

theorem ofProgram_found {file : Option String} {fuel : Nat} {policy : ContextPolicy} {surface : Surface.Program}
    (answers : (ofProgram file fuel policy surface).toOption.isSome = true) :
    ofProgram file fuel policy surface = .ok (found file fuel policy surface) := by
  unfold found
  cases run : ofProgram file fuel policy surface with
  | ok program => rfl
  | error fault =>
      rw [run] at answers
      cases answers

theorem analyze_found {file : Option String} {fuel : Nat} {policy : ContextPolicy} {source : String}
    {surface : Surface.Program} (parsed : Surface.parse source = .ok surface)
    (answers : (ofProgram file fuel policy surface).toOption.isSome = true) :
    analyze file fuel policy source = .ok (.analyzed (found file fuel policy surface)) := by
  unfold analyze
  rw [parsed]
  exact congrArg (Analysis.analyzed <$> ·) (ofProgram_found answers)

/-- What was analysed is a program that the text is read as. -/
theorem analyze_eq_analyzed {file : Option String} {fuel : Nat} {policy : ContextPolicy} {source : String}
    {program : ProgramAnalysis} (run : analyze file fuel policy source = .ok (.analyzed program)) :
    ∃ surface, Surface.parse source = .ok surface ∧ ofProgram file fuel policy surface = .ok program := by
  unfold analyze at run
  split at run
  · cases run
  · rename_i surface parsed
    cases found : ofProgram file fuel policy surface with
    | error fault =>
        rw [found] at run
        cases run
    | ok other =>
        rw [found] at run
        obtain rfl := Analysis.analyzed.inj (Except.ok.inj run)
        exact ⟨surface, parsed, found⟩

/-- The resolver of an analysis is related to a fresh one over the lowered program wherever queries
lead along the relation. -/
theorem Steps.relates {file : Option String} {fuel : Nat} {policy : ContextPolicy} {source : Surface.Program}
    {program : ProgramAnalysis} {binder : Binder} {before : Resolver} {progress : Progress}
    {relation : Resolver → Resolver → Prop} [IsPreorder Resolver relation]
    (steps : Steps file fuel policy source program binder before progress)
    (leads : LeadsQueries program.registry relation relation) :
    relation { table := program.lowered.table } program.resolver :=
  trans_of relation ((ResolveM.operationTable_leads leads fuel _).of_ok steps.resolves)
    ((ResolveM.analyzeProcedures_preserves leads _ _).of_ok steps.analyzes)

end ProgramAnalysis
end LifecycleHooks

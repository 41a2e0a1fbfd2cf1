import LifecycleHooks.Analysis
import LifecycleHooks.Proofs.Lifting.Steadiness
import LifecycleHooks.Proofs.Program.Declaring
import LifecycleHooks.Proofs.Types.FieldLookup

/-!
# Runs of an analysis

The budget of an analysis bounds how many bases the look-up of a field follows, and how long
the queries to the resolver may take.  What is lowered, checked, scheduled and handed over
within one budget is the same within every larger one.  A run of a whole analysis is taken
apart into its steps, and the steps of a run with a larger budget are the same.
-/

namespace LifecycleHooks

open Attempt

namespace BodyM

variable (context : BodyContext)

theorem typeField_steady (place : Position) (subject : TypeId) (name : String) :
    Steady fun fuel => typeField { context with fuel := fuel } place subject name := by
  intro fuel more enough
  apply (Refines.refl _).bind
  intro owner
  apply (Refines.refl _).bind
  intro type
  split
  · exact Refines.refl _
  · have looks := TableM.fieldTypeFrom_steady name [] owner fuel more enough
    exact ((looks.onPart _ _).onPart _ _).bind fun _ => Refines.refl _

mutual

theorem lowerExpr_steady : (expr : Surface.Expr) →
    Steady fun fuel => lowerExpr { context with fuel := fuel } expr
  | .name place name, fuel, more, _ => by
      simp only [lowerExpr]
      exact Refines.refl _
  | .integer place value, fuel, more, _ => by
      simp only [lowerExpr]
      exact Refines.refl _
  | .boolean place value, fuel, more, _ => by
      simp only [lowerExpr]
      exact Refines.refl _
  | .call place callee args, fuel, more, enough => by
      simp only [lowerExpr]
      exact (lowerExprs_steady args fuel more enough).bind fun _ => Refines.refl _
  | .field place subject name, fuel, more, enough => by
      simp only [lowerExpr]
      apply (lowerExpr_steady subject fuel more enough).bind
      intro lowered
      split
      · exact Refines.refl _
      · exact (typeField_steady context place _ name fuel more enough).bind fun _ => Refines.refl _

theorem lowerExprs_steady : (exprs : List Surface.Expr) →
    Steady fun fuel => lowerExprs { context with fuel := fuel } exprs
  | [], fuel, more, _ => by
      simp only [lowerExprs]
      exact Refines.refl _
  | expr :: rest, fuel, more, enough => by
      simp only [lowerExprs]
      apply (lowerExpr_steady expr fuel more enough).bind
      intro lowered
      exact (lowerExprs_steady rest fuel more enough).bind fun _ => Refines.refl _

end

theorem lowerExpr?_steady (expr : Option Surface.Expr) :
    Steady fun fuel => lowerExpr? { context with fuel := fuel } expr := by
  intro fuel more enough
  cases expr with
  | none => exact Refines.refl _
  | some expr => exact (lowerExpr_steady context expr fuel more enough).bind fun _ => Refines.refl _

theorem lowerDeclaration_steady (place : Position) (name : String) (type : Option Surface.TypeExpr)
    (value : Option Surface.Expr) (mutability : Bool) :
    Steady fun fuel => lowerDeclaration { context with fuel := fuel } place name type value mutability :=
  fun fuel more enough => (lowerExpr?_steady context value fuel more enough).bind fun _ => Refines.refl _

theorem inScope_refines {Result : Type} {action other : BodyM Result} (refines : action.Refines other) :
    (inScope action).Refines (inScope other) :=
  (Refines.refl _).bind fun _ => refines.bind fun _ => Refines.refl _

mutual

theorem lowerStmt_steady (inLoop : Bool) : (statement : Surface.Stmt) →
    Steady fun fuel => lowerStmt { context with fuel := fuel } inLoop statement
  | .declare place name type value mutability, fuel, more, enough => by
      simp only [lowerStmt]
      exact (lowerDeclaration_steady context place name type value mutability fuel more enough).bind
        fun _ => Refines.refl _
  | .assign place target value, fuel, more, enough => by
      simp only [lowerStmt]
      apply (lowerExpr_steady context target fuel more enough).bind
      intro target
      exact (lowerExpr_steady context value fuel more enough).bind fun _ => Refines.refl _
  | .expr place inner, fuel, more, enough => by
      simp only [lowerStmt]
      exact (lowerExpr_steady context inner fuel more enough).bind fun _ => Refines.refl _
  | .return place value, fuel, more, enough => by
      simp only [lowerStmt]
      exact (lowerExpr?_steady context value fuel more enough).bind fun _ => Refines.refl _
  | .branch place condition yes none, fuel, more, enough => by
      simp only [lowerStmt]
      apply (lowerExpr_steady context condition fuel more enough).bind
      intro condition
      exact (lowerBlock_steady inLoop yes fuel more enough).bind fun _ => Refines.refl _
  | .branch place condition yes (some no), fuel, more, enough => by
      simp only [lowerStmt]
      apply (lowerExpr_steady context condition fuel more enough).bind
      intro condition
      apply (lowerBlock_steady inLoop yes fuel more enough).bind
      intro yes
      exact (lowerBlock_steady inLoop no fuel more enough).bind fun _ => Refines.refl _
  | .loop place condition body, fuel, more, enough => by
      simp only [lowerStmt]
      apply (lowerExpr_steady context condition fuel more enough).bind
      intro condition
      exact (lowerBlock_steady true body fuel more enough).bind fun _ => Refines.refl _
  | .break place, fuel, more, _ => by
      simp only [lowerStmt]
      exact Refines.refl _
  | .continue place, fuel, more, _ => by
      simp only [lowerStmt]
      exact Refines.refl _
  | .block _ block, fuel, more, enough => by
      simp only [lowerStmt]
      exact (lowerBlock_steady inLoop block fuel more enough).bind fun _ => Refines.refl _
  | .spawn place operand, fuel, more, enough => by
      simp only [lowerStmt]
      exact (lowerExpr_steady context operand fuel more enough).bind fun _ => Refines.refl _

theorem lowerBlock_steady (inLoop : Bool) : (block : Surface.Block) →
    Steady fun fuel => lowerBlock { context with fuel := fuel } inLoop block
  | .mk place statements, fuel, more, enough => by
      simp only [lowerBlock]
      have inside := inScope_refines (lowerStmts_steady inLoop statements fuel more enough)
      exact inside.bind fun _ => Refines.refl _

theorem lowerStmts_steady (inLoop : Bool) : (statements : List Surface.Stmt) →
    Steady fun fuel => lowerStmts { context with fuel := fuel } inLoop statements
  | [], fuel, more, _ => by
      simp only [lowerStmts]
      exact Refines.refl _
  | statement :: rest, fuel, more, enough => by
      simp only [lowerStmts]
      apply (lowerStmt_steady inLoop statement fuel more enough).bind
      intro first
      exact (lowerStmts_steady inLoop rest fuel more enough).bind fun _ => Refines.refl _

end

end BodyM

namespace ResolveM

variable (hooks : Registry)

end ResolveM

namespace ProgramAnalysis

variable {file : Option String} {fuel more : Nat} {policy : ContextPolicy} {source : Surface.Program}
  {program : ProgramAnalysis}

/-- What the resolver is asked in the analysis of a lowered program whose hooks are bound. -/
def inquire (fuel : Nat) (policy : ContextPolicy) (lowered : LoweredProgram) (binder : Binder) :
    ResolveM (List (TypeId × List Operation) × Progress) := do
  let operations ← ResolveM.operationTable binder.registry fuel (lowered.types.map Prod.snd)
  let progress ← ResolveM.analyzeProcedures binder.registry fuel policy
    { diagnostics := lowered.diagnostics ++ binder.diagnostics } lowered.procedures
  return (operations, progress)

/-- A program is lowered, its hooks are bound, and then the resolver is asked. -/
theorem ofProgram_eq (file : Option String) (fuel : Nat) (policy : ContextPolicy) (source : Surface.Program) :
    ofProgram file fuel policy source =
      match LoweredProgram.ofProgram file fuel source with
      | .error fault => .error fault
      | .ok lowered =>
          match Binder.bindAll lowered.table lowered.hooks {} with
          | .error fault _ => .error fault
          | .ok () binder =>
              match inquire fuel policy lowered binder { table := lowered.table } with
              | .error fault _ => .error fault
              | .ok (operations, progress) resolver =>
                  .ok ⟨lowered, binder.registry, resolver, operations, progress.procedures,
                    progress.diagnostics⟩ := by
  unfold ofProgram
  cases LoweredProgram.ofProgram file fuel source with
  | error fault => rfl
  | ok lowered =>
      simp only [bind, Except.bind]
      cases Binder.bindAll lowered.table lowered.hooks {} with
      | error fault binder => rfl
      | ok _ binder => rfl

/-- The steps of an analysis: the program is lowered, its hooks are bound, the operations of its
types are resolved, and its procedures are analysed. -/
structure Steps (file : Option String) (fuel : Nat) (policy : ContextPolicy) (source : Surface.Program)
    (program : ProgramAnalysis) (binder : Binder) (before : Resolver) (progress : Progress) : Prop where
  lowers : LoweredProgram.ofProgram file fuel source = .ok program.lowered
  binds : Binder.bindAll program.lowered.table program.lowered.hooks {} = .ok () binder
  registry : program.registry = binder.registry
  resolves : ResolveM.operationTable program.registry fuel (program.lowered.types.map Prod.snd)
    { table := program.lowered.table } = .ok program.operations before
  analyzes : ResolveM.analyzeProcedures program.registry fuel policy
    { diagnostics := program.lowered.diagnostics ++ binder.diagnostics } program.lowered.procedures before =
      .ok progress program.resolver
  procedures : program.procedures = progress.procedures
  diagnostics : program.diagnostics = progress.diagnostics

/-- An analysis succeeds exactly when its steps do. -/
theorem ofProgram_eq_ok : ofProgram file fuel policy source = .ok program ↔
    ∃ binder before progress, Steps file fuel policy source program binder before progress := by
  rw [ofProgram_eq]
  constructor
  · intro run
    split at run
    · cases run
    · rename_i lowered lowering
      split at run
      · cases run
      · rename_i binder bound
        split at run
        · cases run
        · rename_i operations progress resolver inquired
          obtain rfl := Except.ok.inj run
          obtain ⟨_, before, resolves, inquired⟩ := bind_eq_ok.mp inquired
          obtain ⟨_, last, analyzes, inquired⟩ := bind_eq_ok.mp inquired
          obtain ⟨same, rfl⟩ := EStateM.Result.ok.inj inquired
          obtain ⟨rfl, rfl⟩ := same
          exact ⟨binder, before, _, lowering, bound, rfl, resolves, analyzes, rfl, rfl⟩
  · rintro ⟨binder, before, progress, steps⟩
    obtain ⟨lowered, registry, resolver, operations, procedures, diagnostics⟩ := program
    obtain ⟨lowers, binds, rfl, resolves, analyzes, rfl, rfl⟩ := steps
    have inquired : inquire fuel policy lowered binder { table := lowered.table } =
        .ok (operations, progress) resolver :=
      bind_eq_ok.mpr ⟨operations, before, resolves, bind_eq_ok.mpr ⟨progress, resolver, analyzes, rfl⟩⟩
    rw [lowers]
    dsimp only
    rw [binds]
    dsimp only
    rw [inquired]

end ProgramAnalysis
end LifecycleHooks

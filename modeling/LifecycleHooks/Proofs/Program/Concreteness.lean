import LifecycleHooks.Proofs.Lifting.ShallowContents
import LifecycleHooks.Proofs.Program.Keeping
import LifecycleHooks.Proofs.Program.Scoping

/-!
# Types without type variables

Whatever a body says, the types that its expressions and its locals get are saturated: they are
spelled, or found as fields, or results of calls with saturated types for the type variables.  So
every program leaves a well-scoped table, in which a type without type variables leads to such
types only: no chain of constituents ends at a type parameter without its argument.
-/

namespace LifecycleHooks

open Attempt

/-- A context over saturated types. -/
structure BodyContext.IsSaturated (context : BodyContext) (table : TypeTable) : Prop where
  typeVars : context.typeVars.InScope table Set.univ
  signatures : ∀ entry ∈ context.signatures, entry.2.IsSaturated table

theorem BodyContext.IsSaturated.extends_ {context : BodyContext} {table larger : TypeTable}
    (saturated : context.IsSaturated table) (extends_ : table.Extends larger) : context.IsSaturated larger where
  typeVars entry member := ((saturated.typeVars entry member).saturated.extends_ extends_).inScope
  signatures entry member := (saturated.signatures entry member).extends_ extends_

namespace BodyState

/-- A body on well-scoped declarations in a saturated context, all of whose bindings are of saturated types. -/
structure WellScoped (context : BodyContext) (state : BodyState) : Prop where
  declarations : state.declarations.WellScoped
  context : context.IsSaturated state.table
  scopes : ∀ scope ∈ state.scopes, ∀ entry ∈ scope, state.table.IsSaturated entry.2.type

/-- The type of an expression is saturated, if it has one. -/
def Saturates (state : BodyState) (expr : Expr) : Prop := ∀ type, expr.type = some type → state.table.IsSaturated type

theorem saturates_of_type {state : BodyState} {expr : Expr} {id : TypeId} (typed : expr.type = some id)
    (saturated : state.table.IsSaturated id) : state.Saturates expr := by
  intro type known
  obtain rfl := Option.some.inj (typed.symm.trans known)
  exact saturated

end BodyState

namespace BodyM

open BodyState

variable {context : BodyContext} {state : BodyState}

/-- A computation that gives a saturated type and keeps a body well-scoped. -/
def Fills (context : BodyContext) (action : BodyM TypeId) (state : BodyState) : Prop :=
  Gives (WellScoped context) Extends (fun id later => later.table.IsSaturated id) action state

theorem ask_eq_ok {Result : Type} {question : TypeTable → Except Fault Result} {answer : Result} {later : BodyState} :
    ask question state = .ok answer later ↔ question state.table = .ok answer ∧ later = state := by
  simp [ask, BodyState.table]

section Steps

theorem onDeclarations_gives {Result : Type} {tells : Result → TypeTable → Prop} {action : DeclareM Result}
    (wellScoped : state.WellScoped context)
    (gives : Gives Declarations.WellScoped Declarations.Extends (fun result later => tells result later.table) action
      state.declarations) :
    Gives (WellScoped context) Extends (fun result later => tells result later.table) (onDeclarations action) state :=
  Gives.onPart gives
    (fun _ changed extends_ =>
      ⟨⟨changed, wellScoped.context.extends_ extends_,
        fun scope isScope entry member => (wellScoped.scopes scope isScope entry member).extends_ extends_⟩, extends_⟩)
    (fun _ => rfl)

theorem onDeclarations_fills {action : DeclareM TypeId} (wellScoped : state.WellScoped context)
    (fills : DeclareM.Fills Set.univ action state.declarations) : Fills context (onDeclarations action) state :=
  (@onDeclarations_gives context state TypeId (fun id later => later.InScope Set.univ id) action wellScoped fills).mono
    fun _ _ _ inScope => inScope.saturated

theorem onTable_fills {action : TableM TypeId} (wellScoped : state.WellScoped context)
    (fills : TableM.Fills Set.univ action state.table) : Fills context (onTable action) state :=
  onDeclarations_fills wellScoped (DeclareM.onTable_fills wellScoped.declarations fills)

theorem builtIn_fills {known : TypeTable → Option TypeId} {remember : TypeId → TypeTable → TypeTable}
    {type : TypeDef} (isBuiltIn : TableM.IsBuiltIn known remember type) (constant : type.kind ≠ .typevar)
    (wellScoped : state.WellScoped context) : Fills context (onTable (TableM.builtIn known remember type)) state :=
  onDeclarations_fills wellScoped (DeclareM.builtIn_fills isBuiltIn constant wellScoped.declarations)

theorem report_gives (wellScoped : state.WellScoped context) (code : Code) (place : Position) (message : String) :
    Gives (WellScoped context) Extends (fun _ _ => True) (report context code place message) state :=
  @onDeclarations_gives context state Unit (fun _ _ => True) _ wellScoped
    (DeclareM.report_gives wellScoped.declarations code place message)

/-- What is missing is reported, and the unknown type takes its place. -/
theorem report_fills (wellScoped : state.WellScoped context) (code : Code) (place : Position) (message : String) :
    Fills context (do report context code place message; onTable TableM.unknown) state :=
  (report_gives wellScoped code place message).bind fun _ _ wellScoped _ _ =>
    builtIn_fills TableM.unknown_isBuiltIn (by decide) wellScoped

theorem bind_gives {type : TypeId} (wellScoped : state.WellScoped context) (name : String)
    (saturated : state.table.IsSaturated type) :
    Gives (WellScoped context) Extends (fun _ _ => True) (bind name type) state := by
  have before := wellScoped.scopes
  obtain ⟨declarations, next, scopes, types⟩ := state
  intro id later run
  obtain ⟨rfl, rfl⟩ := EStateM.Result.ok.inj run
  refine ⟨⟨⟨wellScoped.declarations, wellScoped.context, ?_⟩, .refl _⟩, trivial⟩
  cases scopes with
  | nil => exact List.forall_mem_singleton.mpr (List.forall_mem_singleton.mpr saturated)
  | cons scope outer =>
      rw [List.forall_mem_cons] at before
      exact List.forall_mem_cons.mpr ⟨List.forall_mem_cons.mpr ⟨saturated, before.1⟩, before.2⟩

end Steps

section Expressions

/-- The result of a call has the types of the arguments for the type variables that they settle. -/
theorem typeCall_fills {args : List Expr} (wellScoped : state.WellScoped context) (place : Position)
    (callee : String) (saturated : ∀ arg ∈ args, state.Saturates arg) :
    Fills context (typeCall context place callee args) state := by
  unfold typeCall
  cases declared : context.signatures.lookup callee with
  | none => exact report_fills wellScoped _ place _
  | some signature =>
      have isSaturated := wellScoped.context.signatures _ (mem_of_lookup declared)
      dsimp only
      split
      · exact report_fills wellScoped _ place _
      · split
        · exact gives_pure wellScoped isSaturated.result
        · refine Gives.read (fun _ _ run => (ask_eq_ok.mp run).2) fun mapping run => ?_
          have values := wellScoped.declarations.table.matchArguments_saturated (fun type member => ?_) (ask_eq_ok.mp run).1
          · exact onTable_fills wellScoped
              (TableM.substitute_fills wellScoped.declarations.table isSaturated.result values)
          · obtain ⟨pair, isPair, rfl⟩ := List.mem_map.mp member
            obtain ⟨⟨param, arg⟩, zipped, isPair⟩ := List.mem_filterMap.mp isPair
            obtain ⟨type, known, rfl⟩ := Option.map_eq_some_iff.mp isPair
            exact saturated arg (List.of_mem_zip zipped).2 type known

theorem typeField_fills {subject : TypeId} (wellScoped : state.WellScoped context) (place : Position) (name : String)
    (saturated : state.table.IsSaturated subject) : Fills context (typeField context place subject name) state := by
  have table := wellScoped.declarations.table
  refine Gives.read (fun _ _ run => (ask_eq_ok.mp run).2) fun owner run => ?_
  have isSaturated := table.valueTypeWithin_saturated saturated (ask_eq_ok.mp run).1
  refine Gives.read (fun _ _ run => (ask_eq_ok.mp run).2) fun type _ => ?_
  split
  · exact gives_pure wellScoped isSaturated
  · have looked := TableM.fieldTypeFrom_scopes name context.fuel [] table isSaturated.inScope
    apply (onDeclarations_gives wellScoped (DeclareM.onTable_gives wellScoped.declarations looked)).bind
    intro answer later wellScoped _ told
    cases answer with
    | some type => exact gives_pure wellScoped (told type rfl).saturated
    | none =>
        refine Gives.read (fun _ _ run => (ask_eq_ok.mp run).2) fun spelling _ => ?_
        exact report_fills wellScoped _ place _

mutual

/-- Every expression that has a type has a saturated one. -/
theorem lowerExpr_gives : (expr : Surface.Expr) → (state : BodyState) → state.WellScoped context →
    Gives (WellScoped context) Extends (fun lowered later => later.Saturates lowered)
      (lowerExpr context expr) state
  | .name place name, state, wellScoped => by
      rw [lowerExpr]
      refine Gives.read (fun _ _ run => (EStateM.Result.ok.inj run).2.symm) fun found run => ?_
      obtain ⟨rfl, -⟩ := EStateM.Result.ok.inj run
      cases found : state.scopes.findSome? (·.lookup name) with
      | some binding =>
          obtain ⟨scope, isScope, declared⟩ := List.exists_of_findSome?_eq_some found
          have saturated := wellScoped.scopes scope isScope _ (mem_of_lookup declared)
          exact gives_pure wellScoped (saturates_of_type rfl saturated)
      | none =>
          apply (report_gives wellScoped _ place _).bind
          intro _ middle wellScoped _ _
          apply (builtIn_fills TableM.unknown_isBuiltIn (by decide) wellScoped).bind
          intro type later wellScoped _ saturated
          exact gives_pure wellScoped (saturates_of_type rfl saturated)
  | .integer place value, state, wellScoped => by
      rw [lowerExpr]
      apply (builtIn_fills TableM.int_isBuiltIn (by decide) wellScoped).bind
      intro type later wellScoped _ saturated
      exact gives_pure wellScoped (saturates_of_type rfl saturated)
  | .boolean place value, state, wellScoped => by
      rw [lowerExpr]
      apply (builtIn_fills TableM.bool_isBuiltIn (by decide) wellScoped).bind
      intro type later wellScoped _ saturated
      exact gives_pure wellScoped (saturates_of_type rfl saturated)
  | .call place callee args, state, wellScoped => by
      rw [lowerExpr]
      apply (lowerExprs_gives args state wellScoped).bind
      intro lowered middle wellScoped _ inside
      apply (typeCall_fills wellScoped place callee inside).bind
      intro type later wellScoped _ saturated
      exact gives_pure wellScoped (saturates_of_type rfl saturated)
  | .field place subject name, state, wellScoped => by
      rw [lowerExpr]
      apply (lowerExpr_gives subject state wellScoped).bind
      intro lowered middle wellScoped _ saturated
      cases typed : lowered.type with
      | none => exact gives_pure wellScoped fun type known => by cases known
      | some owner =>
          apply (typeField_fills wellScoped place name (saturated owner typed)).bind
          intro type later wellScoped _ saturated
          exact gives_pure wellScoped (saturates_of_type rfl saturated)

theorem lowerExprs_gives : (exprs : List Surface.Expr) → (state : BodyState) → state.WellScoped context →
    Gives (WellScoped context) Extends
      (fun lowered later => ∀ expr ∈ lowered, later.Saturates expr)
      (lowerExprs context exprs) state
  | [], state, wellScoped => by
      rw [lowerExprs]
      exact gives_pure wellScoped (by simp)
  | expr :: rest, state, wellScoped => by
      rw [lowerExprs]
      apply (lowerExpr_gives expr state wellScoped).bind
      intro lowered middle wellScoped _ saturated
      apply (lowerExprs_gives rest middle wellScoped).bind
      intro others later wellScoped extends_ behind
      refine gives_pure wellScoped (List.forall_mem_cons.mpr ⟨fun type known => ?_, behind⟩)
      exact (saturated type known).extends_ extends_

end

end Expressions

section Statements

theorem lowerExpr?_gives (expr : Option Surface.Expr) (wellScoped : state.WellScoped context) :
    Gives (WellScoped context) Extends (fun lowered later => ∀ expr ∈ lowered, later.Saturates expr)
      (lowerExpr? context expr) state := by
  cases expr with
  | none => exact gives_pure wellScoped (by simp)
  | some expr =>
      apply (lowerExpr_gives expr state wellScoped).bind
      exact fun lowered later wellScoped _ saturates => gives_pure wellScoped (by simpa using saturates)

/-- The spelled type of a declaration is saturated, if there is one. -/
theorem declaredType_gives (spelled : Option Surface.TypeExpr) (wellScoped : state.WellScoped context) :
    Gives (WellScoped context) Extends (fun declared later => ∀ type ∈ declared, later.table.IsSaturated type)
      (spelled.mapM fun spelled => onDeclarations (DeclareM.resolveType context.file context.typeVars spelled))
      state := by
  cases spelled with
  | none => exact gives_pure wellScoped (by simp)
  | some spelled =>
      apply (onDeclarations_fills wellScoped
        (DeclareM.resolveType_fills spelled state.declarations wellScoped.declarations wellScoped.context.typeVars)).bind
      exact fun type later wellScoped _ saturated => gives_pure wellScoped (by simpa using saturated)

theorem lowerDeclaration_gives (place : Position) (name : String) (type : Option Surface.TypeExpr)
    (value : Option Surface.Expr) (mutability : Bool) (wellScoped : state.WellScoped context) :
    Gives (WellScoped context) Extends (fun _ _ => True) (lowerDeclaration context place name type value mutability)
      state := by
  apply (lowerExpr?_gives value wellScoped).bind
  intro value middle wellScoped _ saturates
  apply (declaredType_gives type wellScoped).bind
  intro declared later wellScoped extends_ saturated
  -- Whichever type the local gets, it is bound to it.
  have finish {type : TypeId} {last : BodyState} (wellScoped : last.WellScoped context)
      (saturated : last.table.IsSaturated type) : Gives (WellScoped context) Extends (fun _ _ => True) (do
        let binding ← bind name type
        return Stmt.declare (noteAt context place) name value declared mutability (some binding) : BodyM Stmt) last :=
    (bind_gives wellScoped name saturated).bind fun _ _ wellScoped _ _ => gives_pure wellScoped trivial
  cases found : declared.or (value.bind Expr.type) with
  | some type =>
      refine finish wellScoped ?_
      rcases Option.or_eq_some_iff.mp found with isDeclared | ⟨-, isValue⟩
      · exact saturated type isDeclared
      · obtain ⟨expr, isExpr, typed⟩ := Option.bind_eq_some_iff.mp isValue
        exact (saturates expr isExpr type typed).extends_ extends_
  | none =>
      apply (report_gives wellScoped _ place _).bind
      intro _ reported wellScoped _ _
      apply (builtIn_fills TableM.unknown_isBuiltIn (by decide) wellScoped).bind
      exact fun type last wellScoped _ saturated => finish wellScoped saturated

theorem wellScoped_leadsStatements :
    LeadsStatements context (Guides (WellScoped context) Extends) fun _ _ => True where
  exprs expr := leads_of_gives fun state wellScoped => lowerExpr_gives expr state wellScoped
  declares place name type value mutability := leads_of_gives fun _ wellScoped =>
    lowerDeclaration_gives place name type value mutability wellScoped
  strays place message := leads_of_gives fun _ wellScoped => report_gives wellScoped _ place message
  opens state wellScoped :=
    ⟨⟨wellScoped.declarations, wellScoped.context, List.forall_mem_cons.mpr ⟨by simp, wellScoped.scopes⟩⟩,
      .refl state.table⟩
  closes state wellScoped :=
    ⟨⟨wellScoped.declarations, wellScoped.context, fun scope isScope =>
      wellScoped.scopes scope (List.mem_of_mem_tail isScope)⟩, .refl state.table⟩

theorem lowerParams_gives (members : List (Surface.Member × TypeId)) (wellScoped : state.WellScoped context)
    (saturated : ∀ entry ∈ members, state.table.IsSaturated entry.2) :
    Gives (WellScoped context) Extends (fun _ _ => True) (lowerParams context members) state := by
  induction members generalizing state with
  | nil => exact gives_pure wellScoped trivial
  | cons member members ih =>
      obtain ⟨here, others⟩ := List.forall_mem_cons.mp saturated
      apply (bind_gives wellScoped member.1.name here).bind
      intro _ middle wellScoped extends_ _
      apply (ih wellScoped fun entry inside => (others entry inside).extends_ extends_).bind
      exact fun _ _ wellScoped _ _ => gives_pure wellScoped trivial

theorem lowerProcedure_gives (proc : Surface.ProcDecl) {signature : Signature} (wellScoped : state.WellScoped context)
    (saturated : signature.IsSaturated state.table) :
    Gives (WellScoped context) Extends (fun _ _ => True) (lowerProcedure context proc signature) state := by
  apply (lowerParams_gives _ wellScoped fun entry member => saturated.params _ (List.of_mem_zip member).2).bind
  intro params middle wellScoped extends_ _
  have result := saturated.result.extends_ extends_
  refine Gives.read (fun _ _ run => (ask_eq_ok.mp run).2) fun type _ => ?_
  -- Whether there is a value to bind or not, the body is lowered next.
  have finish (resultBinding : Option BindingId) {later : BodyState} (wellScoped : later.WellScoped context) :
      Gives (WellScoped context) Extends (fun _ _ => True) (do
        let body ← lowerBlock context false proc.body
        let procedure : Procedure :=
          { note := noteAt context proc.place
            name := proc.name
            params := params
            result := signature.result
            body := body
            resultBinding := resultBinding }
        return (procedure.number 1).1 : BodyM Procedure) later :=
    (gives_of_leads (lowerBlock_leads wellScoped_leadsStatements false proc.body) wellScoped).bind
      fun _ _ wellScoped _ _ => gives_pure wellScoped trivial
  split
  · exact finish none wellScoped
  · have binds : Gives (WellScoped context) Extends (fun _ _ => True) (some <$> bind "result" signature.result)
        middle := by
      rw [map_eq_pure_bind]
      exact (bind_gives wellScoped "result" result).bind fun _ _ wellScoped _ _ => gives_pure wellScoped trivial
    exact binds.bind fun resultBinding _ wellScoped _ _ => finish resultBinding wellScoped

end Statements
end BodyM

namespace DeclareM

open Declarations

variable {declarations : Declarations} {file : Option String} {fuel : Nat}

theorem lowerBodies_gives {signatures : List (String × Signature)} (procs : List (Surface.ProcDecl × Signature))
    (wellScoped : declarations.WellScoped) (saturated : ∀ entry ∈ signatures, entry.2.IsSaturated declarations.table)
    (procsSaturated : ∀ entry ∈ procs, entry.2.IsSaturated declarations.table) :
    Gives WellScoped Extends (fun _ _ => True) (lowerBodies file fuel signatures procs) declarations := by
  induction procs generalizing declarations with
  | nil => exact gives_pure wellScoped trivial
  | cons head procs ih =>
      obtain ⟨proc, signature⟩ := head
      obtain ⟨here, others⟩ := List.forall_mem_cons.mp procsSaturated
      let context : BodyContext := ⟨file, TypeVars.of proc.typeParams signature.typeVars, signatures, fuel⟩
      have start : BodyState.WellScoped context { declarations := declarations } :=
        ⟨wellScoped, ⟨TypeVars.inScope_of here.typeVars, saturated⟩, by simp⟩
      intro lowered later run
      obtain ⟨one, middle, lowersOne, run⟩ := bind_eq_ok.mp run
      obtain ⟨rest, last, lowersRest, run⟩ := bind_eq_ok.mp run
      obtain ⟨-, rfl⟩ := EStateM.Result.ok.inj run
      split at lowersOne
      · rename_i found state body
        obtain ⟨-, rfl⟩ := EStateM.Result.ok.inj lowersOne
        obtain ⟨procedure, before, lowers, body⟩ := bind_eq_ok.mp body
        obtain ⟨-, rfl⟩ := EStateM.Result.ok.inj body
        obtain ⟨⟨middleScoped, extends_⟩, -⟩ := BodyM.lowerProcedure_gives proc start here procedure before lowers
        obtain ⟨⟨lastScoped, behind⟩, -⟩ := ih middleScoped.declarations
          (fun entry member => (saturated entry member).extends_ extends_)
          (fun entry member => (others entry member).extends_ extends_) rest last lowersRest
        exact ⟨⟨lastScoped, TypeTable.Extends.trans extends_ behind⟩, trivial⟩
      · cases lowersOne

end DeclareM

namespace LoweredProgram

variable {file : Option String} {fuel : Nat} {program : Surface.Program} {lowered : LoweredProgram}

/-- Every program that is lowered leaves a well-scoped table. -/
theorem ofProgram_wellScoped (run : ofProgram file fuel program = .ok lowered) : lowered.table.WellScoped := by
  rw [ofProgram_eq] at run
  cases lowers : DeclareM.lowerProgram file fuel program {} with
  | error fault declarations =>
      rw [lowers] at run
      cases run
  | ok found declarations =>
      rw [lowers] at run
      obtain rfl := Except.ok.inj run
      obtain ⟨_, builtIns, names, lowers⟩ := bind_eq_ok.mp lowers
      obtain ⟨types, declared, declares, lowers⟩ := bind_eq_ok.mp lowers
      obtain ⟨heads, collected, collects, lowers⟩ := bind_eq_ok.mp lowers
      obtain ⟨procedures, last, bodies, lowers⟩ := bind_eq_ok.mp lowers
      obtain ⟨-, rfl⟩ := EStateM.Result.ok.inj lowers
      have wellScoped := (DeclareM.declareBuiltIns_gives Declarations.wellScoped_empty _ _ names).1.1
      have wellScoped := (DeclareM.declareAll_gives program.types wellScoped _ _ declares).1.1
      have noHeads : Heads.AreSaturated {} declared.table := ⟨by simp, by simp⟩
      obtain ⟨⟨wellScoped, -⟩, saturated⟩ := DeclareM.collectHeads_gives program.procs wellScoped noHeads _ _ collects
      exact (DeclareM.lowerBodies_gives heads.procedures wellScoped saturated.signatures saturated.procedures
        _ _ bodies).1.1.table

/-- In every program the distinct types hide no type variables, as matching takes for granted. -/
theorem ofProgram_distinctsClosed (run : ofProgram file fuel program = .ok lowered) : lowered.table.DistinctsClosed := by
  intro id name underlying span found
  have behind := (ofProgram_wellScoped run).behind id _ found underlying (by simp [TypeDef.behind])
  exact (behind.mono (by simp [TypeDef.typeParams])).isGround.2

end LoweredProgram

namespace TypeTable

/-- Constituents are followed from a type of a table to another type.  In between, other types may be asked for
their constituents and for how deeply they nest. -/
inductive Follows (start : TypeTable) (first : TypeId) : TypeTable → TypeId → Prop where
  | here : Follows start first start first
  | step {table larger : TypeTable} {id : TypeId} {slots : List Slot} {slot : Slot} (ahead : Follows start first table id)
      (asked : TableM.constituents id table = .ok slots larger) (member : slot ∈ slots) :
      Follows start first larger slot.type
  | aside {table larger : TypeTable} {id other : TypeId} {slots : List Slot} (ahead : Follows start first table id)
      (asked : TableM.constituents other table = .ok slots larger) : Follows start first larger id
  | measured {table larger : TypeTable} {id other : TypeId} {depth : Nat} (ahead : Follows start first table id)
      (asked : TableM.nesting other table = .ok depth larger) : Follows start first larger id

variable {table start : TypeTable} {id first : TypeId} {vars : Set TypeId}

/-- What is saturated is no generic object. -/
theorem isSaturated_iff (has : table.Has id) : table.IsSaturated id ↔ id ∉ table.genericObjects := by
  obtain ⟨type, found⟩ := has.exists
  constructor
  · rintro ⟨other, known, noParams⟩ ⟨object, isObject, generic⟩
    obtain rfl := Option.some.inj (known.symm.trans isObject)
    exact generic noParams
  · intro notGeneric
    refine ⟨type, found, ?_⟩
    by_contra generic
    exact notGeneric (mem_genericObjects_of_typeParams found (by simpa using generic))

theorem WellScoped.follows (wellScoped : start.WellScoped) (inScope : start.InScope vars first)
    (follows : start.Follows first table id) : table.WellScoped ∧ table.InScope vars id := by
  induction follows with
  | here => exact ⟨wellScoped, inScope⟩
  | step ahead asked member ih =>
      obtain ⟨⟨later, -⟩, inside⟩ := TableM.constituents_scopes ih.1 ih.2 _ _ asked
      exact ⟨later, inside _ member⟩
  | aside ahead asked ih =>
      obtain ⟨later, extends_⟩ := TableM.constituents_grows ih.1 asked
      exact ⟨later, ih.1.toWellFormed.inScope_extends extends_ ih.2⟩
  | measured ahead asked ih =>
      obtain ⟨later, extends_⟩ := TableM.nesting_grows ih.1 asked
      exact ⟨later, ih.1.toWellFormed.inScope_extends extends_ ih.2⟩

end TypeTable

/-- From a type without type variables, unless it is a generic object without its arguments, constituents lead to such
types only, and they are always found. -/
theorem LoweredProgram.constituents_concrete {file : Option String} {fuel : Nat} {program : Surface.Program}
    {lowered : LoweredProgram} {table : TypeTable} {first reached : TypeId}
    (lowers : ofProgram file fuel program = .ok lowered) (concrete : lowered.table.hasTypevars first = .ok false)
    (notGeneric : first ∉ lowered.table.genericObjects) (follows : lowered.table.Follows first table reached) :
    table.hasTypevars reached = .ok false ∧ reached ∉ table.genericObjects ∧
      ∃ slots larger, TableM.constituents reached table = .ok slots larger := by
  have wellScoped := ofProgram_wellScoped lowers
  have wellFormed := wellScoped.toWellFormed
  have has := TypeTable.has_of_hasTypevars concrete
  have inScope : lowered.table.InScope ∅ first :=
    ⟨(TypeTable.isSaturated_iff has).mpr notGeneric, fun var mentions =>
      absurd mentions (wellFormed.isClosed_of_hasTypevars concrete var)⟩
  obtain ⟨later, reachedInScope⟩ := wellScoped.follows inScope follows
  have hasReached := reachedInScope.saturated.has
  obtain ⟨slots, larger, run, -⟩ := TableM.constituents_works later.toWellFormed hasReached
  exact ⟨later.toWellFormed.hasTypevars_of_isClosed hasReached reachedInScope.isGround.2,
    (TypeTable.isSaturated_iff hasReached).mp reachedInScope.saturated, slots, larger, run⟩

/-- Boxes that refer to the next box, and a shelf with a box of integers. -/
def shelfProgram : Surface.Program :=
  let place : Position := ⟨1, 1⟩
  let boxOf (arg : String) : Surface.TypeExpr := .named place "Box" [.named place arg []]
  { types := [
      .object ⟨place, "Box", ["Item"], none,
        [⟨place, "item", .named place "Item" []⟩, ⟨place, "next", .wrap place .ref (boxOf "Item")⟩]⟩,
      .object ⟨place, "Shelf", [], none, [⟨place, "first", boxOf "Int"⟩]⟩]
    procs := [] }

/-- The type table that is left by the shelf. -/
def shelfTable : TypeTable :=
  ((LoweredProgram.ofProgram none 9 shelfProgram).toOption.map LoweredProgram.table).getD {}

/-- The box on the shelf leads to the reference to the next one, which is made on the way and holds integers too. -/
theorem shelf_constituents_concrete : ∃ slots table,
    TableM.constituents 9 shelfTable = .ok slots table ∧ ⟨.field "next", 10⟩ ∈ slots ∧
      table.hasTypevars 10 = .ok false ∧ (10 : TypeId) ∉ table.genericObjects := by
  have answers : (LoweredProgram.ofProgram none 9 shelfProgram).toOption.isSome = true := by decide +kernel
  have asks : ((TableM.constituents 9).result? shelfTable).map (fun slots => decide (⟨.field "next", 10⟩ ∈ slots)) =
      some true := by decide +kernel
  have concrete : (shelfTable.hasTypevars 9).toOption = some false := by decide +kernel
  obtain ⟨slots, asked, member⟩ := Option.map_eq_some_iff.mp asks
  obtain ⟨table, run⟩ : ∃ table, TableM.constituents 9 shelfTable = .ok slots table := ⟨_, run_of_result? asked⟩
  cases lowers : LoweredProgram.ofProgram none 9 shelfProgram with
  | error fault => simp [lowers, Except.toOption] at answers
  | ok lowered =>
      have same : lowered.table = shelfTable := by simp [shelfTable, lowers, Except.toOption]
      have isConcrete : lowered.table.hasTypevars 9 = .ok false := by
        rw [same]
        cases answer : shelfTable.hasTypevars 9 with
        | error fault => simp [answer, Except.toOption] at concrete
        | ok found => simpa [answer, Except.toOption] using concrete
      have notGeneric : (9 : TypeId) ∉ lowered.table.genericObjects := by
        rintro ⟨object, found, -⟩
        have isInstance : shelfTable.get? 9 = some (.applied 4 [1]) := by decide +kernel
        rw [same, isInstance] at found
        cases found
      have follows : lowered.table.Follows 9 table 10 :=
        TypeTable.Follows.step .here (same ▸ run) (of_decide_eq_true member)
      obtain ⟨noVars, notObject, -⟩ := LoweredProgram.constituents_concrete lowers isConcrete notGeneric follows
      exact ⟨slots, table, run, of_decide_eq_true member, noVars, notObject⟩

end LifecycleHooks

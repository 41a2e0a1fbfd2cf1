import LifecycleHooks.Procedure.Context
import LifecycleHooks.Proofs.Procedure.Typing
import LifecycleHooks.Proofs.Program.Declaring

/-!
# Typing bodies

A body is lowered without a fault when every spawn in it is one of a call: each name, field
and procedure that cannot be found is reported and gets the unknown type, so that every
type that an expression or a local is given exists.  Only the look-up of a field along bases
can use up its budget.
-/

namespace LifecycleHooks

open Attempt

/-- A context over existing types. -/
structure BodyContext.Known (context : BodyContext) (table : TypeTable) : Prop where
  typeVars : context.typeVars.Known table
  signatures : ∀ entry ∈ context.signatures, entry.2.Known table

theorem BodyContext.Known.extends_ {context : BodyContext} {table larger : TypeTable} (known : context.Known table)
    (extends_ : table.Extends larger) : context.Known larger where
  typeVars := known.typeVars.extends_ extends_
  signatures entry member := (known.signatures entry member).extends_ extends_

namespace BodyState

/-- The type table of a body. -/
def table (state : BodyState) : TypeTable := state.declarations.table

/-- All bindings of a body are of existing types. -/
structure Sound (state : BodyState) : Prop where
  declarations : state.declarations.Sound
  scopes : ∀ scope ∈ state.scopes, ∀ entry ∈ scope, state.table.Has entry.2.type
  bindings : ∀ entry ∈ state.bindingTypes, state.table.Has entry.2

/-- All types stay in place. -/
def Extends (state later : BodyState) : Prop := state.table.Extends later.table

instance : IsPreorder BodyState Extends where
  refl state := .refl state.table
  trans _ _ _ first second := TypeTable.Extends.trans first second

variable {state later : BodyState} {id : TypeId}

theorem Extends.has (extends_ : state.Extends later) (has : state.table.Has id) : later.table.Has id :=
  TypeTable.Has.extends_ has extends_

/-- The types of expressions exist. -/
def HasTypes (state : BodyState) (exprs : List Expr) : Prop := ∀ type ∈ typesOf exprs, state.table.Has type

theorem HasTypes.extends_ {exprs : List Expr} (has : state.HasTypes exprs) (extends_ : state.Extends later) :
    later.HasTypes exprs :=
  fun type member => extends_.has (has type member)

@[simp]
theorem hasTypes_nil : state.HasTypes [] := by
  simp [HasTypes]

theorem hasTypes_append {first second : List Expr} :
    state.HasTypes (first ++ second) ↔ state.HasTypes first ∧ state.HasTypes second := by
  rw [HasTypes, typesOf_append, List.forall_mem_append]
  rfl

theorem hasTypes_typed {expr : Expr} {rest : List Expr} (typed : expr.type = some id) (has : state.table.Has id)
    (others : state.HasTypes rest) : state.HasTypes (expr :: rest) := by
  rw [HasTypes, typesOf_cons, typed]
  exact List.forall_mem_cons.mpr ⟨has, others⟩

theorem hasTypes_untyped {expr : Expr} {rest : List Expr} (untyped : expr.type = none)
    (others : state.HasTypes rest) : state.HasTypes (expr :: rest) := by
  rw [HasTypes, typesOf_cons, untyped]
  exact others

theorem HasTypes.of_mem {exprs : List Expr} (has : state.HasTypes exprs) {expr : Expr} (member : expr ∈ exprs)
    {type : TypeId} (known : expr.type = some type) : state.table.Has type :=
  has type (List.mem_filterMap.mpr ⟨expr, member, known⟩)

end BodyState

namespace BodyM

open BodyState

variable {context : BodyContext} {state : BodyState}

/-- A computation that gives an existing type and keeps a body sound. -/
def Types (action : BodyM TypeId) (state : BodyState) : Prop :=
  Yields Sound Extends (fun id later => later.table.Has id) action state

section Steps

theorem onDeclarations_yields {Result : Type} {tells : Result → TypeTable → Prop} {action : DeclareM Result}
    (sound : state.Sound)
    (yields : Yields Declarations.Sound Declarations.Extends (fun result later => tells result later.table) action
      state.declarations) :
    Yields Sound Extends (fun result later => tells result later.table) (onDeclarations action) state :=
  Yields.onPart yields
    (fun _ changed extends_ =>
      ⟨⟨changed, fun scope isScope entry member => (sound.scopes scope isScope entry member).extends_ extends_,
        fun entry member => (sound.bindings entry member).extends_ extends_⟩, extends_⟩)
    (fun _ => rfl)

theorem onDeclarations_types {action : DeclareM TypeId} (sound : state.Sound)
    (resolves : DeclareM.Resolves action state.declarations) : Types (onDeclarations action) state :=
  @onDeclarations_yields state TypeId (fun id later => later.Has id) action sound resolves

theorem onTable_types {action : TableM TypeId} (sound : state.Sound) (makes : TypeTable.Makes action state.table) :
    Types (onTable action) state :=
  onDeclarations_yields sound (DeclareM.onTable_yields sound.declarations makes)

theorem unknown_types (sound : state.Sound) : Types (onTable TableM.unknown) state :=
  onTable_types sound (TableM.unknown_makes sound.declarations.proper)

theorem ask_run {Result : Type} {question : TypeTable → Except Fault Result} {answer : Result}
    (answers : question state.table = .ok answer) : ask question state = .ok answer state := by
  have answers : question state.declarations.table = .ok answer := answers
  simp [ask, answers]

theorem report_yields {code : Code} (sound : state.Sound) (place : Position) (message : String)
    (notInternal : code ≠ .missingExitEdge) :
    Yields Sound Extends (fun _ _ => True) (report context code place message) state :=
  @onDeclarations_yields state Unit (fun _ _ => True) _ sound
    (DeclareM.report_yields sound.declarations place message notInternal)

/-- What is missing is reported, and the unknown type takes its place. -/
theorem report_types {code : Code} (sound : state.Sound) (place : Position) (message : String)
    (notInternal : code ≠ .missingExitEdge) :
    Types (do report context code place message; onTable TableM.unknown) state :=
  (report_yields sound place message notInternal).bind fun _ _ sound _ _ => unknown_types sound

theorem bind_yields {type : TypeId} (sound : state.Sound) (name : String) (has : state.table.Has type) :
    Yields Sound Extends (fun _ _ => True) (bind name type) state := by
  have bindings : ∀ entry ∈ state.bindingTypes ++ [(state.nextBinding, type)], state.table.Has entry.2 :=
    List.forall_mem_append.mpr ⟨sound.bindings, by simpa using has⟩
  have before := sound.scopes
  obtain ⟨declarations, next, scopes, types⟩ := state
  cases scopes with
  | nil =>
      refine safe_of_ok rfl ⟨⟨⟨sound.declarations, ?_, bindings⟩, .refl _⟩, trivial⟩
      exact List.forall_mem_singleton.mpr (List.forall_mem_singleton.mpr has)
  | cons scope outer =>
      rw [List.forall_mem_cons] at before
      refine safe_of_ok rfl ⟨⟨⟨sound.declarations, ?_, bindings⟩, .refl _⟩, trivial⟩
      exact List.forall_mem_cons.mpr ⟨List.forall_mem_cons.mpr ⟨has, before.1⟩, before.2⟩

theorem lookup_run (name : String) (state : BodyState) :
    lookup name state = .ok (state.scopes.findSome? (·.lookup name)) state :=
  rfl

theorem lookup_has {name : String} {binding : Binding} (sound : state.Sound)
    (found : state.scopes.findSome? (·.lookup name) = some binding) : state.table.Has binding.type := by
  obtain ⟨scope, isScope, declared⟩ := List.exists_of_findSome?_eq_some found
  exact sound.scopes scope isScope _ (mem_of_lookup declared)

end Steps

section Expressions

/-- A call of a known procedure with the right number of arguments has the result type of the
procedure, with the types that its type variables stand for put in. -/
theorem typeCall_types {args : List Expr} (sound : state.Sound) (known : context.Known state.table)
    (place : Position) (callee : String) (has : state.HasTypes args) :
    Types (typeCall context place callee args) state := by
  unfold typeCall
  cases declared : context.signatures.lookup callee with
  | none => exact report_types sound place _ (by decide)
  | some signature =>
      have signatureKnown := known.signatures _ (mem_of_lookup declared)
      dsimp only
      split
      · exact report_types sound place _ (by decide)
      · split
        · exact yields_pure sound signatureKnown.result
        · have matched : ∀ pair ∈ (signature.params.zip args).filterMap fun entry =>
              entry.2.type.map fun type => (entry.1, type), state.table.Has pair.1 ∧ state.table.Has pair.2 := by
            intro pair member
            obtain ⟨⟨param, arg⟩, zipped, isPair⟩ := List.mem_filterMap.mp member
            obtain ⟨type, known, rfl⟩ := Option.map_eq_some_iff.mp isPair
            obtain ⟨isParam, isArg⟩ := List.of_mem_zip zipped
            exact ⟨signatureKnown.params param isParam, has.of_mem isArg known⟩
          have proper := sound.declarations.proper
          obtain ⟨mapping, answers, assigns⟩ := TypeTable.matchArguments_answers proper.toWellFormed
            (fun _ member => by
              obtain ⟨pair, isPair, rfl⟩ := List.mem_map.mp member
              exact (matched pair isPair).1)
            (fun _ member => by
              obtain ⟨pair, isPair, rfl⟩ := List.mem_map.mp member
              exact (matched pair isPair).2)
          refine Yields.read (ask_run answers) ?_
          exact onTable_types sound (TableM.substitute_makes proper signatureKnown.result assigns)

theorem typeField_types {subject : TypeId} (sound : state.Sound) (place : Position) (name : String)
    (has : state.table.Has subject) : Types (typeField context place subject name) state := by
  have proper := sound.declarations.proper
  obtain ⟨owner, isOwner, hasOwner⟩ := TypeTable.valueType_answers proper.toWellFormed has
  refine Yields.read (ask_run isOwner) ?_
  obtain ⟨type, found⟩ := hasOwner.exists
  refine Yields.read (ask_run (TypeTable.get_eq_ok.mpr found)) ?_
  split
  · exact yields_pure sound hasOwner
  · have looked := TableM.fieldTypeFrom_yields name context.fuel [] proper hasOwner
    apply (onDeclarations_yields sound (DeclareM.onTable_yields sound.declarations looked)).bind
    intro answer later sound extends_ told
    cases answer with
    | some type => exact yields_pure sound (told type rfl)
    | none =>
        have proper := sound.declarations.proper
        obtain ⟨spelling, spells⟩ :=
          TypeTable.spell_answers proper.toWellFormed proper.paramsKnown (extends_.has hasOwner)
        refine Yields.read (ask_run spells) ?_
        exact report_types sound place _ (by decide)

/-- An expression whose parts have existing types.  A call is lowered to a call. -/
def Lowers (state : BodyState) (expr : Surface.Expr) (lowered : Expr) : Prop :=
  state.HasTypes lowered.withParts ∧ (expr.isCall = true → lowered.form = .call)

mutual

/-- Every expression is lowered. -/
theorem lowerExpr_yields : (expr : Surface.Expr) → (state : BodyState) → state.Sound →
    context.Known state.table →
    Yields Sound Extends (fun lowered later => Lowers later expr lowered) (lowerExpr context expr) state
  | .name place name, state, sound, known => by
      rw [lowerExpr]
      refine Yields.read (lookup_run name state) ?_
      cases found : state.scopes.findSome? (·.lookup name) with
      | some binding =>
          have has := lookup_has sound found
          exact yields_pure sound ⟨hasTypes_typed rfl has hasTypes_nil, by simp [Surface.Expr.isCall]⟩
      | none =>
          apply (report_yields sound place _ (by decide)).bind
          intro _ middle sound _ _
          apply (unknown_types sound).bind
          intro type later sound _ has
          exact yields_pure sound ⟨hasTypes_typed rfl has hasTypes_nil, by simp [Surface.Expr.isCall]⟩
  | .integer place value, state, sound, _ => by
      rw [lowerExpr]
      apply (onTable_types sound (TableM.int_makes sound.declarations.proper)).bind
      intro type later sound _ has
      exact yields_pure sound ⟨hasTypes_typed rfl has hasTypes_nil, by simp [Surface.Expr.isCall]⟩
  | .boolean place value, state, sound, _ => by
      rw [lowerExpr]
      apply (onTable_types sound (TableM.bool_makes sound.declarations.proper)).bind
      intro type later sound _ has
      exact yields_pure sound ⟨hasTypes_typed rfl has hasTypes_nil, by simp [Surface.Expr.isCall]⟩
  | .call place callee args, state, sound, known => by
      rw [lowerExpr]
      apply (lowerExprs_yields args state sound known).bind
      intro lowered middle sound extends_ inside
      have direct : middle.HasTypes lowered := fun type member => by
        obtain ⟨arg, isArg, same⟩ := List.mem_filterMap.mp member
        exact inside.of_mem (mem_partsOf isArg) same
      apply (typeCall_types sound (known.extends_ extends_) place callee direct).bind
      intro type later sound extends_ has
      exact yields_pure sound ⟨hasTypes_typed rfl has (inside.extends_ extends_), fun _ => rfl⟩
  | .field place subject name, state, sound, known => by
      rw [lowerExpr]
      apply (lowerExpr_yields subject state sound known).bind
      rintro lowered middle sound extends_ ⟨inside, -⟩
      cases typed : lowered.type with
      | none =>
          exact yields_pure sound ⟨hasTypes_untyped rfl inside, by simp [Surface.Expr.isCall]⟩
      | some owner =>
          have hasOwner := inside.of_mem lowered.mem_withParts typed
          apply (typeField_types sound place name hasOwner).bind
          intro type later sound extends_ has
          exact yields_pure sound
            ⟨hasTypes_typed rfl has (inside.extends_ extends_), by simp [Surface.Expr.isCall]⟩

theorem lowerExprs_yields : (exprs : List Surface.Expr) → (state : BodyState) → state.Sound →
    context.Known state.table →
    Yields Sound Extends (fun lowered later => later.HasTypes (partsOf lowered)) (lowerExprs context exprs) state
  | [], state, sound, _ => by
      rw [lowerExprs]
      exact yields_pure sound hasTypes_nil
  | expr :: rest, state, sound, known => by
      rw [lowerExprs]
      apply (lowerExpr_yields expr state sound known).bind
      rintro lowered middle sound extends_ ⟨inside, -⟩
      apply (lowerExprs_yields rest middle sound (known.extends_ extends_)).bind
      intro others later sound extends_ behind
      exact yields_pure sound (hasTypes_append.mpr ⟨inside.extends_ extends_, behind⟩)

end

theorem lowerExpr?_yields (expr : Option Surface.Expr) (sound : state.Sound) (known : context.Known state.table) :
    Yields Sound Extends (fun lowered later => later.HasTypes (partsOf lowered.toList))
      (lowerExpr? context expr) state := by
  cases expr with
  | none => exact yields_pure sound hasTypes_nil
  | some expr =>
      apply (lowerExpr_yields expr state sound known).bind
      rintro lowered later sound _ ⟨inside, -⟩
      exact yields_pure sound (hasTypes_append.mpr ⟨inside, hasTypes_nil⟩)

end Expressions
section Statements

/-- The spelled type of a declaration resolves, if there is one. -/
theorem declaredType_yields (spelled : Option Surface.TypeExpr) (sound : state.Sound)
    (known : context.Known state.table) :
    Yields Sound Extends (fun declared later => ∀ type ∈ declared, later.table.Has type)
      (spelled.mapM fun spelled => onDeclarations (DeclareM.resolveType context.file context.typeVars spelled))
      state := by
  cases spelled with
  | none => exact yields_pure sound (by simp)
  | some spelled =>
      apply (onDeclarations_types sound
        (DeclareM.resolveType_resolves spelled state.declarations sound.declarations known.typeVars)).bind
      exact fun type later sound _ has => yields_pure sound (by simpa using has)

theorem lowerDeclaration_yields (place : Position) (name : String) (type : Option Surface.TypeExpr)
    (value : Option Surface.Expr) (mutability : Bool) (sound : state.Sound) (known : context.Known state.table) :
    Yields Sound Extends (fun lowered later => later.HasTypes lowered.exprs)
      (lowerDeclaration context place name type value mutability) state := by
  apply (lowerExpr?_yields value sound known).bind
  intro value middle sound first inside
  apply (declaredType_yields type sound (known.extends_ first)).bind
  intro declared later sound second hasDeclared
  have hasValue := inside.extends_ second
  -- Whichever type the local gets, it is bound to it.
  have finish {type : TypeId} {last : BodyState} (sound : last.Sound) (extends_ : later.Extends last)
      (has : last.table.Has type) :
      Yields Sound Extends (fun lowered later => later.HasTypes lowered.exprs) (do
        let binding ← bind name type
        return Stmt.declare (noteAt context place) name value declared mutability (some binding) : BodyM Stmt)
        last := by
    apply (bind_yields sound name has).bind
    exact fun binding bound sound extends' _ => yields_pure sound ((hasValue.extends_ extends_).extends_ extends')
  cases found : declared.or (value.bind Expr.type) with
  | some type =>
      refine finish sound (refl_of Extends later) ?_
      rcases Option.or_eq_some_iff.mp found with isDeclared | ⟨-, isValue⟩
      · exact hasDeclared type isDeclared
      · obtain ⟨expr, rfl, typed⟩ := Option.bind_eq_some_iff.mp isValue
        exact hasValue.of_mem (mem_partsOf (List.mem_singleton.mpr rfl)) typed
  | none =>
      apply (report_yields sound place _ (by decide)).bind
      intro _ reported sound third _
      apply (unknown_types sound).bind
      exact fun type last sound fourth has => finish sound (trans_of Extends third fourth) has

theorem lowerControl_yields (inLoop : Bool) (place : Position) (word : String) {control : Note → Stmt}
    (noExprs : ∀ note, (control note).exprs = []) (sound : state.Sound) :
    Yields Sound Extends (fun lowered later => later.HasTypes (exprsOf lowered.toList))
      (lowerControl context inLoop place word control) state := by
  unfold lowerControl
  split
  · exact yields_pure sound (by simp [exprsOf, noExprs])
  · apply (report_yields sound place _ (by decide)).bind
    exact fun _ later sound _ _ => yields_pure sound hasTypes_nil

/-- A scope is left as it was entered. -/
theorem inScope_yields {action : BodyM (List Stmt)}
    (yields : ∀ entered : BodyState, entered.Sound → entered.table = state.table →
      Yields Sound Extends (fun lowered later => later.HasTypes (exprsOf lowered)) action entered)
    (sound : state.Sound) :
    Yields Sound Extends (fun lowered later => later.HasTypes (exprsOf lowered)) (inScope action) state := by
  have entering : Yields Sound Extends (fun _ later => later.table = state.table)
      (modify fun state : BodyState => { state with scopes := [] :: state.scopes }) state :=
    yields_modify
      ⟨sound.declarations, List.forall_mem_cons.mpr ⟨by simp, sound.scopes⟩, sound.bindings⟩
      (.refl state.table) rfl
  apply entering.bind
  intro _ entered sound _ same
  apply (yields entered sound same).bind
  intro lowered inner sound _ inside
  have leaving : Yields Sound Extends (fun _ later => later.table = inner.table)
      (modify fun state : BodyState => { state with scopes := state.scopes.tail }) inner :=
    yields_modify
      ⟨sound.declarations, fun scope isScope => sound.scopes scope (List.mem_of_mem_tail isScope), sound.bindings⟩
      (.refl inner.table) rfl
  apply leaving.bind
  exact fun _ left sound extends_ _ => yields_pure sound (inside.extends_ extends_)

mutual

/-- Every statement is lowered, when what it spawns are calls. -/
theorem lowerStmt_yields (inLoop : Bool) : (statement : Surface.Stmt) → statement.strayOperand? = none →
    (state : BodyState) → state.Sound → context.Known state.table →
    Yields Sound Extends (fun lowered later => later.HasTypes (exprsOf lowered.toList))
      (lowerStmt context inLoop statement) state
  | .declare place name type value mutability, _, state, sound, known => by
      rw [lowerStmt]
      apply (lowerDeclaration_yields place name type value mutability sound known).bind
      exact fun lowered later sound _ has => yields_pure sound (hasTypes_append.mpr ⟨has, hasTypes_nil⟩)
  | .assign place target value, _, state, sound, known => by
      rw [lowerStmt]
      apply (lowerExpr_yields target state sound known).bind
      rintro target middle sound first ⟨hasTarget, -⟩
      apply (lowerExpr_yields value middle sound (known.extends_ first)).bind
      rintro value later sound second ⟨hasValue, -⟩
      have inside := hasTypes_append.mpr ⟨hasTarget.extends_ second, hasValue⟩
      exact yields_pure sound (hasTypes_append.mpr ⟨inside, hasTypes_nil⟩)
  | .expr place inner, _, state, sound, known => by
      rw [lowerStmt]
      apply (lowerExpr_yields inner state sound known).bind
      rintro inner later sound _ ⟨has, -⟩
      exact yields_pure sound (hasTypes_append.mpr ⟨has, hasTypes_nil⟩)
  | .return place value, _, state, sound, known => by
      rw [lowerStmt]
      apply (lowerExpr?_yields value sound known).bind
      exact fun value later sound _ has => yields_pure sound (hasTypes_append.mpr ⟨has, hasTypes_nil⟩)
  | .branch place condition yes none, noStray, state, sound, known => by
      rw [lowerStmt]
      apply (lowerExpr_yields condition state sound known).bind
      rintro condition middle sound first ⟨hasCondition, -⟩
      apply (lowerBlock_yields inLoop yes noStray middle sound (known.extends_ first)).bind
      intro yes later sound second hasYes
      have inside := hasTypes_append.mpr ⟨hasCondition.extends_ second, hasYes⟩
      exact yields_pure sound (hasTypes_append.mpr ⟨inside, hasTypes_nil⟩)
  | .branch place condition yes (some no), noStray, state, sound, known => by
      obtain ⟨noStrayYes, noStrayNo⟩ := Option.or_eq_none_iff.mp noStray
      rw [lowerStmt]
      apply (lowerExpr_yields condition state sound known).bind
      rintro condition middle sound first ⟨hasCondition, -⟩
      apply (lowerBlock_yields inLoop yes noStrayYes middle sound (known.extends_ first)).bind
      intro yes later sound second hasYes
      have stillKnown := (known.extends_ first).extends_ second
      apply (lowerBlock_yields inLoop no noStrayNo later sound stillKnown).bind
      intro no last sound third hasNo
      have before := hasTypes_append.mpr ⟨hasCondition.extends_ second, hasYes⟩
      have inside := hasTypes_append.mpr ⟨before.extends_ third, hasNo⟩
      exact yields_pure sound (hasTypes_append.mpr ⟨inside, hasTypes_nil⟩)
  | .loop place condition body, noStray, state, sound, known => by
      rw [lowerStmt]
      apply (lowerExpr_yields condition state sound known).bind
      rintro condition middle sound first ⟨hasCondition, -⟩
      apply (lowerBlock_yields true body noStray middle sound (known.extends_ first)).bind
      intro body later sound second hasBody
      have inside := hasTypes_append.mpr ⟨hasCondition.extends_ second, hasBody⟩
      exact yields_pure sound (hasTypes_append.mpr ⟨inside, hasTypes_nil⟩)
  | .break place, _, state, sound, _ => by
      rw [lowerStmt]
      exact lowerControl_yields inLoop place "break" (fun _ => rfl) sound
  | .continue place, _, state, sound, _ => by
      rw [lowerStmt]
      exact lowerControl_yields inLoop place "continue" (fun _ => rfl) sound
  | .block _ block, noStray, state, sound, known => by
      rw [lowerStmt]
      apply (lowerBlock_yields inLoop block noStray state sound known).bind
      exact fun block later sound _ has => yields_pure sound (hasTypes_append.mpr ⟨has, hasTypes_nil⟩)
  | .spawn place operand, noStray, state, sound, known => by
      have isCall : operand.isCall = true := by
        by_contra notCall
        simp [Surface.Stmt.strayOperand?, notCall] at noStray
      rw [lowerStmt]
      apply (lowerExpr_yields operand state sound known).bind
      rintro operand later sound _ ⟨has, form⟩
      cases operand with
      | call note callee args =>
          refine yields_pure sound (hasTypes_append.mpr ⟨fun type member => has type ?_, hasTypes_nil⟩)
          rw [Expr.withParts, typesOf_cons]
          exact List.mem_append_right _ member
      | _ => cases form isCall

/-- Every block is lowered, when what it spawns are calls. -/
theorem lowerBlock_yields (inLoop : Bool) : (block : Surface.Block) → block.strayOperand? = none →
    (state : BodyState) → state.Sound → context.Known state.table →
    Yields Sound Extends (fun lowered later => later.HasTypes lowered.exprs)
      (lowerBlock context inLoop block) state
  | .mk place statements, noStray, state, sound, known => by
      rw [lowerBlock]
      have inside := inScope_yields (fun entered sound same =>
        lowerStmts_yields inLoop statements noStray entered sound (same ▸ known)) sound
      apply inside.bind
      exact fun statements later sound _ has => yields_pure sound has

theorem lowerStmts_yields (inLoop : Bool) : (statements : List Surface.Stmt) →
    Surface.strayOperandIn? statements = none → (state : BodyState) → state.Sound → context.Known state.table →
    Yields Sound Extends (fun lowered later => later.HasTypes (exprsOf lowered))
      (lowerStmts context inLoop statements) state
  | [], _, state, sound, _ => by
      rw [lowerStmts]
      exact yields_pure sound hasTypes_nil
  | statement :: rest, noStray, state, sound, known => by
      obtain ⟨noStrayHere, noStrayBehind⟩ := Option.or_eq_none_iff.mp noStray
      rw [lowerStmts]
      apply (lowerStmt_yields inLoop statement noStrayHere state sound known).bind
      intro first middle sound extends_ here
      apply (lowerStmts_yields inLoop rest noStrayBehind middle sound (known.extends_ extends_)).bind
      intro others later sound extends_ behind
      refine yields_pure sound ?_
      rw [exprsOf_append]
      exact hasTypes_append.mpr ⟨here.extends_ extends_, behind⟩

end

end Statements
section Procedures

theorem lowerParams_yields (members : List (Surface.Member × TypeId)) (sound : state.Sound)
    (has : ∀ entry ∈ members, state.table.Has entry.2) :
    Yields Sound Extends (fun _ _ => True) (lowerParams context members) state := by
  induction members generalizing state with
  | nil => exact yields_pure sound trivial
  | cons member members ih =>
      obtain ⟨hasType, others⟩ := List.forall_mem_cons.mp has
      apply (bind_yields sound member.1.name hasType).bind
      intro binding middle sound extends_ _
      apply (ih sound fun entry isEntry => extends_.has (others entry isEntry)).bind
      exact fun params later sound _ _ => yields_pure sound trivial

/-- Every procedure is lowered, when what it spawns are calls. -/
theorem lowerProcedure_yields {proc : Surface.ProcDecl} {signature : Signature}
    (noStray : proc.body.strayOperand? = none) (sound : state.Sound) (known : context.Known state.table)
    (signatureKnown : signature.Known state.table) :
    Yields Sound Extends (fun procedure later => later.HasTypes procedure.body.exprs)
      (lowerProcedure context proc signature) state := by
  have hasParams : ∀ entry ∈ proc.params.zip signature.params, state.table.Has entry.2 :=
    fun entry member => signatureKnown.params _ (List.of_mem_zip member).2
  apply (lowerParams_yields _ sound hasParams).bind
  intro params middle sound first _
  have hasResult := first.has signatureKnown.result
  obtain ⟨type, found⟩ := hasResult.exists
  refine Yields.read (ask_run (TypeTable.get_eq_ok.mpr found)) ?_
  -- With or without a binding for the result, the body is lowered next.
  have finish (resultBinding : Option BindingId) {later : BodyState} (sound : later.Sound)
      (extends_ : middle.Extends later) :
      Yields Sound Extends (fun procedure later => later.HasTypes procedure.body.exprs) (do
        let body ← lowerBlock context false proc.body
        let procedure : Procedure :=
          { note := noteAt context proc.place
            name := proc.name
            params := params
            result := signature.result
            body := body
            resultBinding := resultBinding }
        return (procedure.number 1).1 : BodyM Procedure) later := by
    apply (lowerBlock_yields false proc.body noStray later sound ((known.extends_ first).extends_ extends_)).bind
    intro body last sound _ has
    refine yields_pure sound ?_
    unfold HasTypes at has ⊢
    rwa [← body.number_types (numberParams params (1 + 1)).2] at has
  split
  · exact finish none sound (refl_of Extends middle)
  · rw [map_eq_pure_bind]
    simp only [bind_assoc, pure_bind]
    apply (bind_yields sound "result" hasResult).bind
    exact fun binding later sound extends_ _ => finish (some binding) sound extends_

end Procedures
end BodyM

/-- A lowered procedure with existing types. -/
structure LoweredProcedure.Known (lowered : LoweredProcedure) (table : TypeTable) : Prop where
  exprs : ∀ type ∈ typesOf lowered.procedure.body.exprs, table.Has type
  bindings : ∀ entry ∈ lowered.bindingTypes, table.Has entry.2

theorem LoweredProcedure.Known.extends_ {lowered : LoweredProcedure} {table larger : TypeTable}
    (known : lowered.Known table) (extends_ : table.Extends larger) : lowered.Known larger where
  exprs type member := (known.exprs type member).extends_ extends_
  bindings entry member := (known.bindings entry member).extends_ extends_

namespace DeclareM

open Declarations

variable {declarations : Declarations} {file : Option String} {fuel : Nat}

/-- A body is lowered on declarations of its own. -/
theorem ofBody_yields {lower : BodyM LoweredProcedure}
    (yields : Yields BodyState.Sound BodyState.Extends (fun one later => one.Known later.table) lower
      { declarations := declarations }) :
    Yields Sound Extends (fun one later => one.Known later.table) (fun declarations =>
      match lower { declarations := declarations } with
      | .ok lowered state => .ok lowered state.declarations
      | .error fault state => .error fault state.declarations) declarations := by
  unfold Yields Safe at yields ⊢
  dsimp only
  cases run : lower { declarations := declarations } with
  | ok lowered state =>
      rw [run] at yields
      obtain ⟨⟨sound, extends_⟩, known⟩ := yields
      exact ⟨⟨sound.declarations, extends_⟩, known⟩
  | error fault state =>
      rw [run] at yields
      exact yields

theorem lowerBodies_yields {signatures : List (String × Signature)} (procs : List (Surface.ProcDecl × Signature))
    (noStray : ∀ entry ∈ procs, entry.1.body.strayOperand? = none) (sound : declarations.Sound)
    (signaturesKnown : ∀ entry ∈ signatures, entry.2.Known declarations.table)
    (procsKnown : ∀ entry ∈ procs, entry.2.Known declarations.table) :
    Yields Sound Extends (fun lowered later => ∀ one ∈ lowered, one.Known later.table)
      (lowerBodies file fuel signatures procs) declarations := by
  induction procs generalizing declarations with
  | nil => exact yields_pure sound (by simp)
  | cons head procs ih =>
      obtain ⟨proc, signature⟩ := head
      obtain ⟨noStrayHere, noStrayBehind⟩ := List.forall_mem_cons.mp noStray
      obtain ⟨signatureKnown, othersKnown⟩ := List.forall_mem_cons.mp procsKnown
      have start : BodyState.Sound { declarations := declarations } := ⟨sound, by simp, by simp⟩
      let context : BodyContext := ⟨file, TypeVars.of proc.typeParams signature.typeVars, signatures, fuel⟩
      have known : context.Known declarations.table :=
        ⟨TypeVars.known_of signatureKnown.typeVars, signaturesKnown⟩
      have lowers : Yields BodyState.Sound BodyState.Extends (fun one later => one.Known later.table) (do
          let procedure ← BodyM.lowerProcedure context proc signature
          return ⟨procedure, signature, (← get).bindingTypes⟩ : BodyM LoweredProcedure)
          { declarations := declarations } := by
        apply (BodyM.lowerProcedure_yields noStrayHere start known signatureKnown).bind
        intro procedure later sound _ has
        exact Yields.read (get_run later) (yields_pure sound ⟨has, sound.bindings⟩)
      apply (ofBody_yields lowers).bind
      intro one middle sound extends_ oneKnown
      have others := ih noStrayBehind sound
        (fun entry member => (signaturesKnown entry member).extends_ extends_)
        (fun entry member => (othersKnown entry member).extends_ extends_)
      apply others.bind
      intro rest later sound extends_ restKnown
      exact yields_pure sound (List.forall_mem_cons.mpr ⟨oneKnown.extends_ extends_, restKnown⟩)

end DeclareM

namespace LoweredProgram

/-- A lowered program over existing types of a proper table. -/
structure Sound (program : LoweredProgram) : Prop where
  proper : program.table.Proper
  types : ∀ entry ∈ program.types, program.table.Has entry.2
  hooks : ∀ hook ∈ program.hooks, hook.IsOver program.table
  procedures : ∀ one ∈ program.procedures, one.Known program.table
  reports : ∀ diagnostic ∈ program.diagnostics, ¬ diagnostic.IsInternal

/-- Every program whose spawns are of calls is lowered, unless the budget for bases is used up. -/
theorem ofProgram_sound (file : Option String) (fuel : Nat) {program : Surface.Program}
    (noStray : program.strayOperand? = none) :
    match ofProgram file fuel program with
    | .ok lowered => lowered.Sound
    | .error fault => fault = .exhausted := by
  have procs : ∀ proc ∈ program.procs, proc.body.strayOperand? = none :=
    fun proc member => List.findSome?_eq_none_iff.mp noStray proc member
  have lowers : Safe (fun (types, heads, procedures) declarations =>
      Sound ⟨declarations.table, types, heads.hooks, procedures, declarations.diagnostics⟩)
      (DeclareM.lowerProgram file fuel program) {} := by
    refine Safe.bind (DeclareM.declareBuiltIns_yields Declarations.sound_empty) ?_
    rintro _ builtIns - ⟨⟨sound, -⟩, -⟩
    refine Safe.bind (DeclareM.declareAll_yields program.types sound) ?_
    rintro types declared - ⟨⟨sound, -⟩, hasTypes⟩
    have noHeads : Heads.Known {} declared.table := ⟨by simp, by simp, by simp⟩
    refine Safe.bind (DeclareM.collectHeads_yields program.procs procs sound noHeads (by simp)) ?_
    rintro heads collected - ⟨⟨sound, first⟩, known, noStrays⟩
    refine Safe.bind (DeclareM.lowerBodies_yields heads.procedures noStrays sound known.signatures known.procedures) ?_
    rintro procedures later - ⟨⟨sound, second⟩, proceduresKnown⟩
    refine safe_pure ⟨sound.proper, fun entry member => ?_, fun hook member => ?_, proceduresKnown, sound.reports⟩
    · exact second.has (first.has (hasTypes entry member))
    · exact (known.hooks hook member).extends_ second
  rw [ofProgram_eq]
  cases run : DeclareM.lowerProgram file fuel program {} with
  | ok found declarations => exact lowers.of_ok run
  | error fault declarations => exact lowers.of_error run

end LoweredProgram
end LifecycleHooks

import LifecycleHooks.Proofs.Procedure.Lexical
import LifecycleHooks.Proofs.Program.Lowering

/-!
# Names in lowered bodies

Lowering looks names up where they are used, so a lowered body is lexical.  Outside of it the
names of the implicit result and of the parameters can be seen.
-/

namespace LifecycleHooks

open Attempt BodyState

/-- A declaration gets the next binding. -/
theorem Binds.declare_eq {inLoop : Bool} {first after : BindingId} {visible seen : Names} {note : Note}
    {name : String} {value : Option Expr} {type : Option TypeId} {mutability : Bool}
    {binding : Option BindingId} (binds : Binds inLoop first visible
      (.statement (.declare note name value type mutability binding)) after seen) :
    binding = some first ∧ after = first + 1 := by
  cases binds
  exact ⟨rfl, rfl⟩

namespace BodyM

variable (context : BodyContext) {given : BindingId → Prop}

theorem lowerDeclaration_declares {place : Position} {name : String} {type : Option Surface.TypeExpr}
    {value : Option Surface.Expr} {mutability : Bool} {state later : BodyState} {lowered : Stmt}
    (run : lowerDeclaration context place name type value mutability state = .ok lowered later) :
    ∃ note value declared binding, lowered = .declare note name value declared mutability binding := by
  obtain ⟨value, first, -, run⟩ := bind_eq_ok.mp run
  obtain ⟨declared, second, -, run⟩ := bind_eq_ok.mp run
  cases found : declared.or (value.bind Expr.type) with
  | some type =>
      rw [found] at run
      obtain ⟨id, last, -, run⟩ := bind_eq_ok.mp run
      obtain ⟨rfl, rfl⟩ := EStateM.Result.ok.inj run
      exact ⟨_, _, _, _, rfl⟩
  | none =>
      rw [found] at run
      obtain ⟨_, third, -, run⟩ := bind_eq_ok.mp run
      obtain ⟨unknown, fourth, -, run⟩ := bind_eq_ok.mp run
      obtain ⟨id, last, -, run⟩ := bind_eq_ok.mp run
      obtain ⟨rfl, rfl⟩ := EStateM.Result.ok.inj run
      exact ⟨_, _, _, _, rfl⟩

/-- The bindings that are given between two states are of a kind. -/
def GivesOnly (given : BindingId → Prop) (state later : BodyState) : Prop :=
  ∀ id : Int, state.nextBinding ≤ id → id < later.nextBinding → given id

theorem GivesOnly.first {state middle later : BodyState} (gives : GivesOnly given state later)
    (onwards : middle.nextBinding ≤ later.nextBinding) : GivesOnly given state middle :=
  fun id above below => gives id above (Int.lt_of_lt_of_le below onwards)

theorem GivesOnly.rest {state middle later : BodyState} (gives : GivesOnly given state later)
    (onwards : state.nextBinding ≤ middle.nextBinding) : GivesOnly given middle later :=
  fun id above below => gives id (Int.le_trans onwards above) below

theorem GivesOnly.after {state middle later : BodyState} (gives : GivesOnly given state later)
    (same : SameBindings state middle) : GivesOnly given middle later :=
  gives.rest (Int.le_of_eq same.next.symm)

/-- Nothing is bound by a `break` or a `continue`. -/
theorem lowerControl_lexical (control : Note → Stmt) {inLoop : Bool} {place : Position} {word : String}
    {state later : BodyState} {lowered : Option Stmt} {visible : Names}
    (lexical : ∀ note, (control note).IsLexical given visible)
    (run : lowerControl context inLoop place word control state = .ok lowered later) :
    AllLexical given visible lowered.toList := by
  unfold lowerControl at run
  split at run
  · obtain ⟨rfl, rfl⟩ := EStateM.Result.ok.inj run
    exact ⟨lexical _, trivial⟩
  · obtain ⟨_, middle, -, run⟩ := bind_eq_ok.mp run
    obtain ⟨rfl, rfl⟩ := EStateM.Result.ok.inj run
    trivial

mutual

/-- A lowered statement uses the names in scope by their bindings. -/
theorem lowerStmt_lexical (inLoop : Bool) : (statement : Surface.Stmt) → {state later : BodyState} →
    {lowered : Option Stmt} → lowerStmt context inLoop statement state = .ok lowered later →
      GivesOnly given state later → AllLexical given state.visible lowered.toList
  | .declare place name type value mutability, state, later, lowered, run, gives => by
      obtain ⟨statement, middle, declared, run⟩ := bind_eq_ok.mp run
      obtain ⟨rfl, rfl⟩ := EStateM.Result.ok.inj run
      have lowers : Lowers inLoop state _ _ := lowerDeclaration_lowers context declared
      obtain ⟨note, value, type, binding, rfl⟩ := lowerDeclaration_declares context declared
      obtain ⟨rfl, last⟩ := lowers.binds.declare_eq
      exact ⟨⟨_, rfl, gives _ (Int.le_refl _) (last ▸ Int.lt_succ _)⟩, trivial⟩
  | .assign place target value, state, later, lowered, run, gives => by
      obtain ⟨target, middle, targetRun, run⟩ := bind_eq_ok.mp run
      obtain ⟨value, last, valueRun, run⟩ := bind_eq_ok.mp run
      obtain ⟨rfl, rfl⟩ := EStateM.Result.ok.inj run
      exact ⟨lowerExpr_visible context targetRun, trivial⟩
  | .expr place inner, state, later, lowered, run, gives => by
      obtain ⟨inner, middle, innerRun, run⟩ := bind_eq_ok.mp run
      obtain ⟨rfl, rfl⟩ := EStateM.Result.ok.inj run
      exact ⟨trivial, trivial⟩
  | .return place value, state, later, lowered, run, gives => by
      obtain ⟨value, middle, valueRun, run⟩ := bind_eq_ok.mp run
      obtain ⟨rfl, rfl⟩ := EStateM.Result.ok.inj run
      exact ⟨lowerExpr?_visible context valueRun, trivial⟩
  | .branch place condition yes none, state, later, lowered, run, gives => by
      obtain ⟨condition, first, conditionRun, run⟩ := bind_eq_ok.mp run
      obtain ⟨yes, last, yesRun, run⟩ := bind_eq_ok.mp run
      obtain ⟨rfl, rfl⟩ := EStateM.Result.ok.inj run
      have same := (lowerExpr_same context _).of_ok conditionRun
      rw [← same.visible]
      exact ⟨lowerBlock_lexical inLoop _ yesRun (gives.after same), trivial⟩
  | .branch place condition yes (some no), state, later, lowered, run, gives => by
      obtain ⟨condition, first, conditionRun, run⟩ := bind_eq_ok.mp run
      obtain ⟨yes, second, yesRun, run⟩ := bind_eq_ok.mp run
      obtain ⟨no, last, noRun, run⟩ := bind_eq_ok.mp run
      obtain ⟨rfl, rfl⟩ := EStateM.Result.ok.inj run
      have same := (lowerExpr_same context _).of_ok conditionRun
      have ifYes := (lowerBlock_lowers context inLoop _ false yesRun).binds
      have ifNo := (lowerBlock_lowers context inLoop _ false noRun).binds
      have gives := gives.after same
      rw [← same.visible]
      refine ⟨⟨lowerBlock_lexical inLoop _ yesRun (gives.first ifNo.next_le), ?_⟩, trivial⟩
      rw [← ifYes.seen_of_block]
      exact lowerBlock_lexical inLoop _ noRun (gives.rest ifYes.next_le)
  | .loop place condition body, state, later, lowered, run, gives => by
      obtain ⟨condition, first, conditionRun, run⟩ := bind_eq_ok.mp run
      obtain ⟨body, last, bodyRun, run⟩ := bind_eq_ok.mp run
      obtain ⟨rfl, rfl⟩ := EStateM.Result.ok.inj run
      have same := (lowerExpr_same context _).of_ok conditionRun
      rw [← same.visible]
      exact ⟨lowerBlock_lexical true _ bodyRun (gives.after same), trivial⟩
  | .break place, state, later, lowered, run, gives =>
      lowerControl_lexical context .break (fun _ => trivial) run
  | .continue place, state, later, lowered, run, gives =>
      lowerControl_lexical context .continue (fun _ => trivial) run
  | .block _ block, state, later, lowered, run, gives => by
      obtain ⟨block, last, blockRun, run⟩ := bind_eq_ok.mp run
      obtain ⟨rfl, rfl⟩ := EStateM.Result.ok.inj run
      exact ⟨lowerBlock_lexical inLoop _ blockRun gives, trivial⟩
  | .spawn place operand, state, later, lowered, run, gives => by
      obtain ⟨call, middle, callRun, run⟩ := bind_eq_ok.mp run
      split at run
      · obtain ⟨rfl, rfl⟩ := EStateM.Result.ok.inj run
        exact ⟨trivial, trivial⟩
      · cases run

/-- A lowered block uses the names in scope by their bindings. -/
theorem lowerBlock_lexical (inLoop : Bool) : (block : Surface.Block) → {state later : BodyState} →
    {lowered : Block} → lowerBlock context inLoop block state = .ok lowered later →
      GivesOnly given state later → lowered.IsLexical given state.visible
  | .mk place statements, state, later, lowered, run, gives => by
      obtain ⟨inner, middle, inside, run⟩ := bind_eq_ok.mp run
      obtain ⟨rfl, rfl⟩ := EStateM.Result.ok.inj run
      obtain ⟨_, entered, enter, inside⟩ := bind_eq_ok.mp inside
      obtain ⟨rfl, rfl⟩ := EStateM.Result.ok.inj enter
      obtain ⟨result, last, innerRun, inside⟩ := bind_eq_ok.mp inside
      obtain ⟨_, closed, close, inside⟩ := bind_eq_ok.mp inside
      obtain ⟨rfl, rfl⟩ := EStateM.Result.ok.inj close
      obtain ⟨rfl, rfl⟩ := EStateM.Result.ok.inj inside
      have within : AllLexical given (BodyState.visible { state with scopes := [] :: state.scopes }) _ :=
        lowerStmts_lexical inLoop statements innerRun gives
      exact within

/-- Lowered statements use the names in scope by their bindings. -/
theorem lowerStmts_lexical (inLoop : Bool) : (statements : List Surface.Stmt) → {state later : BodyState} →
    {lowered : List Stmt} → lowerStmts context inLoop statements state = .ok lowered later →
      GivesOnly given state later → AllLexical given state.visible lowered
  | [], state, later, lowered, run, gives => by
      obtain ⟨rfl, rfl⟩ := EStateM.Result.ok.inj run
      trivial
  | statement :: rest, state, later, lowered, run, gives => by
      obtain ⟨first, middle, firstRun, run⟩ := bind_eq_ok.mp run
      obtain ⟨others, last, restRun, run⟩ := bind_eq_ok.mp run
      obtain ⟨rfl, rfl⟩ := EStateM.Result.ok.inj run
      have before := (lowerStmt_lowers context inLoop statement firstRun).binds
      have behind := (lowerStmts_lowers context inLoop rest restRun).binds
      refine allLexical_append (lowerStmt_lexical inLoop statement firstRun (gives.first behind.next_le)) ?_
      rw [← before.seen_eq]
      exact lowerStmts_lexical inLoop rest restRun (gives.rest before.next_le)

end

end BodyM

/-- The names that can be seen outside of a body: that of the implicit result, if there is one, and
those of the parameters, the last one first. -/
def Procedure.outerNames (procedure : Procedure) : Names :=
  (procedure.resultBinding.toList.map fun id => ("result", id)) ++ paramNames procedure.params

/-- A name that can be seen outside of a body is no local. -/
theorem Procedure.outerNames_not_local {procedure : Procedure} {name : String} {id : BindingId}
    (member : (name, id) ∈ procedure.outerNames) : ¬ procedure.IsLocal id := by
  rintro ⟨noParam, noResult⟩
  rcases List.mem_append.mp member with isResult | isParam
  · obtain ⟨result, found, same⟩ := List.mem_map.mp isResult
    obtain ⟨-, rfl⟩ := Prod.mk.inj same
    exact noResult (Option.mem_toList.mp found)
  · obtain ⟨param, inside, found⟩ := List.mem_filterMap.mp (List.mem_reverse.mp isParam)
    obtain ⟨other, bound, same⟩ := Option.map_eq_some_iff.mp found
    obtain ⟨-, rfl⟩ := Prod.mk.inj same
    exact noParam (List.mem_map.mpr ⟨param, inside, bound⟩)

/-- The body of a procedure uses the names that can be seen by their bindings, and the implicit
result is no parameter. -/
structure Procedure.IsNamed (procedure : Procedure) (types : BindingTypes) : Prop where
  lexical : procedure.body.IsLexical (fun id => procedure.IsLocal id ∧ (types.lookup id).isSome = true)
    procedure.outerNames
  apart : ∀ id, procedure.resultBinding = some id → some id ∉ procedure.params.map Param.binding

namespace BodyM

variable (context : BodyContext)

theorem numberParams_names (params : List Param) (first : NodeId) :
    paramNames (numberParams params first).1 = paramNames params := by
  unfold paramNames
  congr 1
  induction params generalizing first with
  | nil => rfl
  | cons param params ih => simp [numberParams, List.filterMap_cons, ih]

/-- A lowered procedure uses the names that can be seen by their bindings. -/
theorem lowerProcedure_named {proc : Surface.ProcDecl} {signature : Signature} {declarations : Declarations}
    {procedure : Procedure} {final : BodyState}
    (run : lowerProcedure context proc signature { declarations := declarations } = .ok procedure final) :
    procedure.IsNamed final.bindingTypes := by
  obtain ⟨params, resultBinding, state, body, enters, bodyRun, rfl, -⟩ := lowerProcedure_enters context run
  have surrounds := enters.surrounds
  have lowers := lowerBlock_lowers context false proc.body false bodyRun
  refine ⟨?_, fun id isResult => ?_⟩
  · rw [Procedure.outerNames, Procedure.number, numberParams_names, ← enters.names]
    refine (lowerBlock_lexical context false proc.body bodyRun fun id above below => ?_).number _
    exact ⟨isLocal_of_enters enters above, lowers.typed surrounds.typed id (Int.le_trans surrounds.positive above) below⟩
  · rw [Procedure.number, numberParams_bindings]
    exact enters.apart id isResult

end BodyM

theorem Procedure.IsLowered.isNamed {procedure : Procedure} {types : BindingTypes}
    (lowered : procedure.IsLowered types) : procedure.IsNamed types := by
  obtain ⟨context, proc, signature, declarations, state, run, rfl⟩ := lowered
  exact BodyM.lowerProcedure_named context run

end LifecycleHooks

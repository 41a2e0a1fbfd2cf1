import LifecycleHooks.Program.Lowered
import LifecycleHooks.Proofs.Attempt
import LifecycleHooks.Proofs.Procedure.Declarations
import Mathlib

/-!
# Lowered bodies

While a body is lowered, expressions leave the bindings as they are, and each
declaration gets the next one, with the type that it tells.  So the names of a lowered
body are bound, whatever the text that it was lowered from.
-/

namespace LifecycleHooks

namespace BodyState

/-- The names in scope, each with its binding, the latest first. -/
def visible (state : BodyState) : Names :=
  state.scopes.flatten.map fun (name, binding) => (name, binding.id)

/-- Every binding that was given has a type. -/
def Typed (state : BodyState) : Prop :=
  ∀ id : Int, 1 ≤ id → id < state.nextBinding → (state.bindingTypes.lookup id).isSome

/-- The same names are bound in two states, and the same bindings were given. -/
structure SameBindings (state later : BodyState) : Prop where
  next : later.nextBinding = state.nextBinding
  scopes : later.scopes = state.scopes
  types : later.bindingTypes = state.bindingTypes

instance : IsPreorder BodyState SameBindings where
  refl _ := ⟨rfl, rfl, rfl⟩
  trans _ _ _ first second :=
    ⟨second.next.trans first.next, second.scopes.trans first.scopes,
      second.types.trans first.types⟩

theorem SameBindings.visible {state later : BodyState} (same : SameBindings state later) :
    later.visible = state.visible := by
  unfold BodyState.visible
  rw [same.scopes]

/-- A declared binding has the type that its declaration tells, if it tells one. -/
def Recorded (declared : BindingId × Option TypeId) (entry : BindingId × TypeId) : Prop :=
  entry.1 = declared.1 ∧ ∀ type, declared.2 = some type → entry.2 = type

/-- The bindings that were given between two states are the declared ones, in order. -/
def Records (state later : BodyState) (declared : Declared) : Prop :=
  ∃ more, later.bindingTypes = state.bindingTypes ++ more ∧ List.Forall₂ Recorded declared more

theorem SameBindings.records {state later : BodyState} (same : SameBindings state later) :
    Records state later [] :=
  ⟨[], by rw [same.types, List.append_nil], .nil⟩

theorem Records.append {state middle later : BodyState} {first second : Declared}
    (before : Records state middle first) (behind : Records middle later second) :
    Records state later (first ++ second) := by
  obtain ⟨more, types, each⟩ := before
  obtain ⟨others, finalTypes, rest⟩ := behind
  exact ⟨more ++ others, by rw [finalTypes, types, List.append_assoc], List.rel_append each rest⟩

/-- Lowering leads from one state to another and gives a fragment whose names are
bound.  The scopes around the innermost one stay as they are. -/
structure Lowers (inLoop : Bool) (state later : BodyState) (fragment : Fragment) : Prop where
  around : later.scopes.tail = state.scopes.tail
  typed : state.Typed → later.Typed
  binds : Binds inLoop state.nextBinding state.visible fragment later.nextBinding later.visible
  records : Records state later fragment.declarations

theorem Lowers.after {inLoop : Bool} {state middle later : BodyState} {fragment : Fragment}
    (lowers : Lowers inLoop middle later fragment) (same : SameBindings state middle) :
    Lowers inLoop state later fragment where
  around := by rw [lowers.around, same.scopes]
  typed typed := lowers.typed (by
    unfold Typed
    rw [same.next, same.types]
    exact typed)
  binds := by
    rw [← same.next, ← same.visible]
    exact lowers.binds
  records := same.records.append lowers.records

theorem Lowers.map {inLoop inside : Bool} {state later : BodyState} {fragment whole : Fragment}
    (lowers : Lowers inside state later fragment)
    (wraps : ∀ {next after visible seen}, Binds inside next visible fragment after seen →
      Binds inLoop next visible whole after seen)
    (declares : whole.declarations = fragment.declarations) : Lowers inLoop state later whole :=
  ⟨lowers.around, lowers.typed, wraps lowers.binds, declares ▸ lowers.records⟩

/-- A fragment that binds no name is lowered without giving a binding. -/
theorem SameBindings.lowers {inLoop : Bool} {state later : BodyState} {fragment : Fragment}
    (same : SameBindings state later)
    (binds : Binds inLoop state.nextBinding state.visible fragment state.nextBinding
      state.visible) (declares : fragment.declarations = []) : Lowers inLoop state later fragment where
  around := by rw [same.scopes]
  typed typed := by
    unfold Typed
    rw [same.next, same.types]
    exact typed
  binds := by
    rw [same.next, same.visible]
    exact binds
  records := declares ▸ same.records

theorem Lowers.append {inLoop : Bool} {state middle later : BodyState} {first second : List Stmt}
    (before : Lowers inLoop state middle (.sequence first))
    (behind : Lowers inLoop middle later (.sequence second)) :
    Lowers inLoop state later (.sequence (first ++ second)) :=
  ⟨behind.around.trans before.around, fun typed => behind.typed (before.typed typed),
    before.binds.append behind.binds, by
      rw [Fragment.declarations, declarationsOf_append]
      exact before.records.append behind.records⟩

theorem Lowers.single {inLoop : Bool} {state later : BodyState} {statement : Stmt}
    (lowers : Lowers inLoop state later (.statement statement)) :
    Lowers inLoop state later (.sequence [statement]) :=
  lowers.map (fun binds => .cons binds (.nil ..)) (List.append_nil _)

end BodyState

namespace BodyM

open Attempt BodyState

variable (context : BodyContext)

section Expressions

theorem onDeclarations_same {Result : Type} (action : DeclareM Result) :
    (onDeclarations action).Preserves SameBindings := by
  have anything : action.Preserves fun _ _ => True := by
    intro state
    split <;> trivial
  exact preserves_onPart anything fun _ _ _ => ⟨rfl, rfl, rfl⟩

theorem onTable_same {Result : Type} (action : TableM Result) :
    (onTable action).Preserves SameBindings :=
  onDeclarations_same _

theorem report_same (code : Code) (place : Position) (message : String) :
    (report context code place message).Preserves SameBindings :=
  onDeclarations_same _

theorem ask_same {Result : Type} (question : TypeTable → Except Fault Result) :
    (ask question).Preserves SameBindings :=
  leads_get.bind fun _ => leads_ofExcept _

theorem typeCall_same (place : Position) (callee : String) (args : List Expr) :
    (typeCall context place callee args).Preserves SameBindings := by
  unfold typeCall
  split
  · exact (report_same context _ place _).bind fun _ => onTable_same _
  · split
    · exact (report_same context _ place _).bind fun _ => onTable_same _
    · split
      · exact leads_pure _
      · exact (ask_same _).bind fun _ => onTable_same _

theorem typeField_same (place : Position) (subject : TypeId) (name : String) :
    (typeField context place subject name).Preserves SameBindings := by
  refine (ask_same _).bind fun owner => (ask_same _).bind fun type => ?_
  split
  · exact leads_pure _
  · refine (onTable_same _).bind fun found => ?_
    split
    · exact leads_pure _
    · exact (ask_same _).bind fun _ => (report_same context _ place _).bind fun _ => onTable_same _

mutual

theorem lowerExpr_same : (expr : Surface.Expr) →
    (lowerExpr context expr).Preserves SameBindings
  | .name place name => by
      refine (leads_get.bind fun _ => leads_pure _).bind fun found => ?_
      split
      · exact leads_pure _
      · exact (report_same context _ place _).bind fun _ => (onTable_same _).bind fun _ => leads_pure _
  | .integer place value => (onTable_same _).bind fun _ => leads_pure _
  | .boolean place value => (onTable_same _).bind fun _ => leads_pure _
  | .call place callee args =>
      (lowerExprs_same args).bind fun _ =>
        (typeCall_same context place callee _).bind fun _ => leads_pure _
  | .field place subject name => by
      refine (lowerExpr_same subject).bind fun lowered => ?_
      split
      · exact leads_pure _
      · exact (typeField_same context place _ name).bind fun _ => leads_pure _

theorem lowerExprs_same : (exprs : List Surface.Expr) →
    (lowerExprs context exprs).Preserves SameBindings
  | [] => leads_pure _
  | expr :: rest =>
      (lowerExpr_same expr).bind fun _ => (lowerExprs_same rest).bind fun _ => leads_pure _

end

theorem lowerExpr?_same (expr : Option Surface.Expr) :
    (lowerExpr? context expr).Preserves SameBindings := by
  cases expr with
  | none => exact leads_pure _
  | some expr => exact (lowerExpr_same context expr).bind fun _ => leads_pure _

theorem lookup_ids (name : String) (scope : List (String × Binding)) :
    (scope.map fun (name, binding) => (name, binding.id)).lookup name =
      (scope.lookup name).map Binding.id := by
  induction scope with
  | nil => rfl
  | cons entry scope ih =>
      cases same : name == entry.1 <;> simp [List.lookup, same, ih]

theorem lookup_eq_ok {name : String} {state later : BodyState} {found : Option Binding}
    (run : lookup name state = .ok found later) :
    later = state ∧ state.visible.lookup name = found.map Binding.id := by
  obtain ⟨rfl, rfl⟩ := EStateM.Result.ok.inj run
  refine ⟨rfl, ?_⟩
  unfold BodyState.visible
  induction state.scopes with
  | nil => rfl
  | cons scope outer ih =>
      rw [List.flatten_cons, List.map_append, List.lookup_append, lookup_ids, ih,
        List.findSome?_cons]
      cases scope.lookup name <;> rfl

/-- A lowered name has the binding that the name stands for. -/
theorem lowerExpr_visible {expr : Surface.Expr} {state later : BodyState} {lowered : Expr}
    (run : lowerExpr context expr state = .ok lowered later) :
    ReturnsVisible state.visible (some lowered) := by
  cases expr with
  | name place name =>
      obtain ⟨found, middle, looked, run⟩ := bind_eq_ok.mp run
      obtain ⟨rfl, same⟩ := lookup_eq_ok looked
      cases found with
      | some binding =>
          obtain ⟨rfl, rfl⟩ := EStateM.Result.ok.inj run
          exact same.symm
      | none =>
          obtain ⟨_, middle, _, run⟩ := bind_eq_ok.mp run
          obtain ⟨type, last, _, run⟩ := bind_eq_ok.mp run
          obtain ⟨rfl, rfl⟩ := EStateM.Result.ok.inj run
          exact same.symm
  | integer place value =>
      obtain ⟨type, middle, _, run⟩ := bind_eq_ok.mp run
      obtain ⟨rfl, rfl⟩ := EStateM.Result.ok.inj run
      trivial
  | boolean place value =>
      obtain ⟨type, middle, _, run⟩ := bind_eq_ok.mp run
      obtain ⟨rfl, rfl⟩ := EStateM.Result.ok.inj run
      trivial
  | call place callee args =>
      obtain ⟨lowered, middle, _, run⟩ := bind_eq_ok.mp run
      obtain ⟨type, last, _, run⟩ := bind_eq_ok.mp run
      obtain ⟨rfl, rfl⟩ := EStateM.Result.ok.inj run
      trivial
  | field place subject name =>
      obtain ⟨lowered, middle, _, run⟩ := bind_eq_ok.mp run
      cases owner : lowered.type with
      | none =>
          rw [owner] at run
          obtain ⟨rfl, rfl⟩ := EStateM.Result.ok.inj run
          trivial
      | some owner =>
          rw [‹lowered.type = _›] at run
          obtain ⟨type, last, _, run⟩ := bind_eq_ok.mp run
          obtain ⟨rfl, rfl⟩ := EStateM.Result.ok.inj run
          trivial

theorem lowerExpr?_visible {expr : Option Surface.Expr} {state later : BodyState}
    {lowered : Option Expr} (run : lowerExpr? context expr state = .ok lowered later) :
    ReturnsVisible state.visible lowered := by
  cases expr with
  | none =>
      obtain ⟨rfl, rfl⟩ := EStateM.Result.ok.inj run
      trivial
  | some expr =>
      obtain ⟨lowered, middle, inner, run⟩ := bind_eq_ok.mp run
      obtain ⟨rfl, rfl⟩ := EStateM.Result.ok.inj run
      exact lowerExpr_visible context inner

end Expressions

/-- Binding a name gives it the next binding, and a type to that. -/
structure Bound (name : String) (type : TypeId) (state later : BodyState) : Prop where
  next : later.nextBinding = state.nextBinding + 1
  around : later.scopes.tail = state.scopes.tail
  visible : later.visible = (name, state.nextBinding) :: state.visible
  types : later.bindingTypes = state.bindingTypes ++ [(state.nextBinding, type)]

theorem bind_bound {name : String} {type : TypeId} {state later : BodyState} {id : BindingId}
    (run : bind name type state = .ok id later) :
    id = state.nextBinding ∧ Bound name type state later := by
  obtain ⟨rfl, rfl⟩ := EStateM.Result.ok.inj run
  obtain ⟨declarations, next, scopes, types⟩ := state
  cases scopes with
  | nil => exact ⟨rfl, rfl, rfl, rfl, rfl⟩
  | cons scope outer => exact ⟨rfl, rfl, rfl, rfl, rfl⟩

theorem Bound.typed {name : String} {type : TypeId} {state later : BodyState}
    (bound : Bound name type state later) (typed : state.Typed) : later.Typed := by
  intro id positive below
  rw [bound.types, List.lookup_append]
  rw [bound.next] at below
  by_cases before : id < state.nextBinding
  · rw [Option.isSome_or, typed id positive before]
    rfl
  · have same : id = state.nextBinding := by omega
    simp [same, List.lookup]

theorem declaredType_same (type : Option Surface.TypeExpr) :
    (type.mapM fun spelled => onDeclarations
      (DeclareM.resolveType context.file context.typeVars spelled)).Preserves SameBindings := by
  cases type with
  | none => exact leads_pure none
  | some spelled => exact (onDeclarations_same _).bind fun _ => leads_pure _

theorem declare_lowers {inLoop : Bool} {note : Note} {name : String} {type : TypeId}
    {value : Option Expr} {declared : Option TypeId} {mutability : Bool}
    {state later : BodyState} {lowered : Stmt}
    (told : ∀ found, declared.or (value.bind Expr.type) = some found → type = found)
    (run : (do
      let binding ← bind name type
      return Stmt.declare note name value declared mutability (some binding) : BodyM Stmt) state =
        .ok lowered later) : Lowers inLoop state later (.statement lowered) := by
  obtain ⟨id, last, bindRun, run⟩ := bind_eq_ok.mp run
  obtain ⟨rfl, rfl⟩ := EStateM.Result.ok.inj run
  obtain ⟨rfl, bound⟩ := bind_bound bindRun
  refine ⟨bound.around, bound.typed, ?_, _, bound.types, .cons ⟨rfl, told⟩ .nil⟩
  rw [bound.next, bound.visible]
  exact .declare ..

theorem lowerDeclaration_lowers {inLoop : Bool} {place : Position} {name : String}
    {type : Option Surface.TypeExpr} {value : Option Surface.Expr} {mutability : Bool}
    {state later : BodyState} {lowered : Stmt}
    (run : lowerDeclaration context place name type value mutability state = .ok lowered later) :
    Lowers inLoop state later (.statement lowered) := by
  obtain ⟨value, first, valueRun, run⟩ := bind_eq_ok.mp run
  obtain ⟨declared, second, declaredRun, run⟩ := bind_eq_ok.mp run
  have same : SameBindings state second := trans_of SameBindings
    ((lowerExpr?_same context _).of_ok valueRun) ((declaredType_same context type).of_ok declaredRun)
  cases found : declared.or (value.bind Expr.type) with
  | some type =>
      rw [found] at run
      exact (declare_lowers (fun _ told => Option.some.inj (found.symm.trans told)) run).after same
  | none =>
      rw [found] at run
      obtain ⟨_, third, reportRun, run⟩ := bind_eq_ok.mp run
      obtain ⟨unknown, fourth, unknownRun, run⟩ := bind_eq_ok.mp run
      have reported := (report_same context _ place _).of_ok reportRun
      have inferred := (onTable_same _).of_ok unknownRun
      exact (((declare_lowers (fun _ told => by cases found.symm.trans told) run).after
        inferred).after reported).after same

/-- A `break` or a `continue` is kept only inside of a loop. -/
theorem lowerControl_lowers {inLoop : Bool} {place : Position} {word : String}
    {control : Note → Stmt} {state later : BodyState} {lowered : Option Stmt}
    (binds : ∀ next visible note,
      Binds true next visible (.statement (control note)) next visible)
    (declares : ∀ {note}, (control note).declarations = [])
    (run : lowerControl context inLoop place word control state = .ok lowered later) :
    Lowers inLoop state later (.sequence lowered.toList) := by
  unfold lowerControl at run
  split at run
  · obtain ⟨rfl, rfl⟩ := EStateM.Result.ok.inj run
    rename_i inside
    subst inside
    have same : SameBindings state state := ⟨rfl, rfl, rfl⟩
    exact (same.lowers (binds _ _ _) declares).single
  · obtain ⟨_, middle, reported, run⟩ := bind_eq_ok.mp run
    obtain ⟨rfl, rfl⟩ := EStateM.Result.ok.inj run
    have same := (report_same context _ place _).of_ok reported
    exact same.lowers (.nil ..) rfl

/-- Lowering in a scope of its own leaves the scopes as they were. -/
theorem inScope_lowers {inLoop : Bool} (isLoopBody : Bool) (note : Note)
    {action : BodyM (List Stmt)} {state later : BodyState} {statements : List Stmt}
    (lowers : ∀ {state later : BodyState}, action state = .ok statements later →
      Lowers inLoop state later (.sequence statements))
    (run : inScope action state = .ok statements later) :
    later.scopes = state.scopes ∧
      Lowers inLoop state later (.block isLoopBody (.mk note statements)) := by
  obtain ⟨_, entered, enter, run⟩ := bind_eq_ok.mp run
  obtain ⟨rfl, rfl⟩ := EStateM.Result.ok.inj enter
  obtain ⟨result, inner, inside, run⟩ := bind_eq_ok.mp run
  obtain ⟨_, closed, close, run⟩ := bind_eq_ok.mp run
  obtain ⟨rfl, rfl⟩ := EStateM.Result.ok.inj close
  obtain ⟨rfl, rfl⟩ := EStateM.Result.ok.inj run
  have within := lowers inside
  have same : inner.scopes.tail = state.scopes := within.around
  have visible : state.visible = BodyState.visible { inner with scopes := inner.scopes.tail } := by
    unfold BodyState.visible
    rw [same]
  refine ⟨same, congrArg List.tail same, within.typed, ?_, within.records⟩
  rw [← visible]
  exact .scope _ _ within.binds

mutual

/-- The names of a lowered statement are bound. -/
theorem lowerStmt_lowers (inLoop : Bool) : (statement : Surface.Stmt) →
    {state later : BodyState} → {lowered : Option Stmt} →
    lowerStmt context inLoop statement state = .ok lowered later →
      Lowers inLoop state later (.sequence lowered.toList)
  | .declare place name type value mutability, state, later, lowered, run => by
      obtain ⟨statement, middle, declared, run⟩ := bind_eq_ok.mp run
      obtain ⟨rfl, rfl⟩ := EStateM.Result.ok.inj run
      exact (lowerDeclaration_lowers context declared).single
  | .assign place target value, state, later, lowered, run => by
      obtain ⟨target, middle, targetRun, run⟩ := bind_eq_ok.mp run
      obtain ⟨value, last, valueRun, run⟩ := bind_eq_ok.mp run
      obtain ⟨rfl, rfl⟩ := EStateM.Result.ok.inj run
      have same := trans_of SameBindings ((lowerExpr_same context _).of_ok targetRun)
        ((lowerExpr_same context _).of_ok valueRun)
      exact (same.lowers (.assign ..) rfl).single
  | .expr place inner, state, later, lowered, run => by
      obtain ⟨inner, middle, innerRun, run⟩ := bind_eq_ok.mp run
      obtain ⟨rfl, rfl⟩ := EStateM.Result.ok.inj run
      exact (((lowerExpr_same context _).of_ok innerRun).lowers (.expr ..) rfl).single
  | .return place value, state, later, lowered, run => by
      obtain ⟨value, middle, valueRun, run⟩ := bind_eq_ok.mp run
      obtain ⟨rfl, rfl⟩ := EStateM.Result.ok.inj run
      have named := lowerExpr?_visible context valueRun
      exact (((lowerExpr?_same context _).of_ok valueRun).lowers (.return _ _ _ named) rfl).single
  | .branch place condition yes none, state, later, lowered, run => by
      obtain ⟨condition, first, conditionRun, run⟩ := bind_eq_ok.mp run
      obtain ⟨yes, last, yesRun, run⟩ := bind_eq_ok.mp run
      obtain ⟨rfl, rfl⟩ := EStateM.Result.ok.inj run
      have inside := lowerBlock_lowers inLoop _ false yesRun
      exact ((inside.map (.branch _ _) rfl).after
        ((lowerExpr_same context _).of_ok conditionRun)).single
  | .branch place condition yes (some no), state, later, lowered, run => by
      obtain ⟨condition, first, conditionRun, run⟩ := bind_eq_ok.mp run
      obtain ⟨yes, second, yesRun, run⟩ := bind_eq_ok.mp run
      obtain ⟨no, last, noRun, run⟩ := bind_eq_ok.mp run
      obtain ⟨rfl, rfl⟩ := EStateM.Result.ok.inj run
      have ifYes := lowerBlock_lowers inLoop _ false yesRun
      have ifNo := lowerBlock_lowers inLoop _ false noRun
      have lowers : Lowers inLoop first last
          (.statement (.branch (noteAt context place) condition yes (some no))) :=
        ⟨ifNo.around.trans ifYes.around, fun typed => ifNo.typed (ifYes.typed typed),
          .branchElse _ _ ifYes.binds ifNo.binds, ifYes.records.append ifNo.records⟩
      exact (lowers.after ((lowerExpr_same context _).of_ok conditionRun)).single
  | .loop place condition body, state, later, lowered, run => by
      obtain ⟨condition, first, conditionRun, run⟩ := bind_eq_ok.mp run
      obtain ⟨body, last, bodyRun, run⟩ := bind_eq_ok.mp run
      obtain ⟨rfl, rfl⟩ := EStateM.Result.ok.inj run
      have inside := lowerBlock_lowers true _ true bodyRun
      exact ((inside.map (.loop _ _ _) rfl).after
        ((lowerExpr_same context _).of_ok conditionRun)).single
  | .break place, state, later, lowered, run =>
      lowerControl_lowers context (fun _ _ _ => .break ..) rfl run
  | .continue place, state, later, lowered, run =>
      lowerControl_lowers context (fun _ _ _ => .continue ..) rfl run
  | .block _ block, state, later, lowered, run => by
      obtain ⟨block, last, blockRun, run⟩ := bind_eq_ok.mp run
      obtain ⟨rfl, rfl⟩ := EStateM.Result.ok.inj run
      exact ((lowerBlock_lowers inLoop _ false blockRun).map .block rfl).single
  | .spawn place operand, state, later, lowered, run => by
      obtain ⟨call, middle, callRun, run⟩ := bind_eq_ok.mp run
      have same := (lowerExpr_same context _).of_ok callRun
      split at run
      · obtain ⟨rfl, rfl⟩ := EStateM.Result.ok.inj run
        exact (same.lowers (.spawn ..) rfl).single
      · cases run

/-- The names of a lowered block are bound. -/
theorem lowerBlock_lowers (inLoop : Bool) : (block : Surface.Block) → (isLoopBody : Bool) →
    {state later : BodyState} → {lowered : Block} →
    lowerBlock context inLoop block state = .ok lowered later →
      Lowers inLoop state later (.block isLoopBody lowered)
  | .mk place statements, isLoopBody, state, later, lowered, run => by
      obtain ⟨inner, middle, inside, run⟩ := bind_eq_ok.mp run
      obtain ⟨rfl, rfl⟩ := EStateM.Result.ok.inj run
      exact (inScope_lowers isLoopBody _ (lowerStmts_lowers inLoop statements) inside).2

/-- The names of lowered statements are bound. -/
theorem lowerStmts_lowers (inLoop : Bool) : (statements : List Surface.Stmt) →
    {state later : BodyState} → {lowered : List Stmt} →
    lowerStmts context inLoop statements state = .ok lowered later →
      Lowers inLoop state later (.sequence lowered)
  | [], state, later, lowered, run => by
      obtain ⟨rfl, rfl⟩ := EStateM.Result.ok.inj run
      exact SameBindings.lowers ⟨rfl, rfl, rfl⟩ (.nil ..) rfl
  | statement :: rest, state, later, lowered, run => by
      obtain ⟨first, middle, firstRun, run⟩ := bind_eq_ok.mp run
      obtain ⟨others, last, restRun, run⟩ := bind_eq_ok.mp run
      obtain ⟨rfl, rfl⟩ := EStateM.Result.ok.inj run
      exact (lowerStmt_lowers inLoop statement firstRun).append
        (lowerStmts_lowers inLoop rest restRun)

end

end BodyM

/-- A binding of a local that is declared in the body of a procedure: neither that of a
parameter nor that of the implicit result. -/
def Procedure.IsLocal (procedure : Procedure) (binding : BindingId) : Prop :=
  some binding ∉ procedure.params.map Param.binding ∧ procedure.resultBinding ≠ some binding

/-- The body of a procedure is bound from a first binding on: the names around it are
those of the parameters and the result, and every local has a type. -/
structure Procedure.BoundFrom (procedure : Procedure) (types : BindingTypes)
    (first after : BindingId) (names : Names) : Prop where
  binds : Binds false first names (.block false procedure.body) after names
  descending : Descending first names
  outside : ∀ entry ∈ names, ¬ procedure.IsLocal entry.2
  locals : ∀ binding, first ≤ binding → procedure.IsLocal binding
  typed : ∀ id : Int, first ≤ id → id < after → (types.lookup id).isSome
  recorded : ∀ id type, (id, some type) ∈ procedure.body.declarations → types.lookup id = some type

/-- The visible names stand for bindings of a kind, all of which were given before. -/
structure BodyState.Surrounds (outside : BindingId → Prop) (state : BodyState) : Prop where
  positive : (1 : Int) ≤ state.nextBinding
  typed : state.Typed
  descending : Descending state.nextBinding state.visible
  named : ∀ entry ∈ state.visible, outside entry.2
  given : ∀ entry ∈ state.bindingTypes, entry.1 < state.nextBinding
  below : ∀ binding, outside binding → binding < state.nextBinding

/-- The names of parameters, the last one first. -/
def paramNames (params : List Param) : Names :=
  (params.filterMap fun param => param.binding.map fun id => (param.name, id)).reverse

/-- Where the body of a procedure begins, the names of its parameters can be seen and that of its
implicit result, if it has one, which is no parameter. -/
structure BodyState.Enters (params : List Param) (resultBinding : Option BindingId) (state : BodyState) : Prop where
  surrounds : state.Surrounds fun binding =>
    some binding ∈ params.map Param.binding ∨ resultBinding = some binding
  names : state.visible = (resultBinding.toList.map fun id => ("result", id)) ++ paramNames params
  apart : ∀ id, resultBinding = some id → some id ∉ params.map Param.binding

namespace BodyState

theorem lookup_of_recorded {declared : Declared} {entries : BindingTypes}
    (each : List.Forall₂ Recorded declared entries) (distinct : (declared.map Prod.fst).Nodup)
    {id : BindingId} {type : TypeId} (member : (id, some type) ∈ declared) :
    entries.lookup id = some type := by
  induction each with
  | nil => cases member
  | @cons first entry declared entries here rest ih =>
      obtain ⟨same, told⟩ := here
      rw [List.map_cons, List.nodup_cons] at distinct
      rcases List.mem_cons.mp member with rfl | behind
      · rw [List.lookup_cons, same, told type rfl]
        simp
      · have differ : id ≠ entry.1 := fun equal =>
          distinct.1 (same ▸ equal ▸ List.mem_map_of_mem behind)
        rw [List.lookup_cons, beq_eq_false_iff_ne.mpr differ]
        exact ih distinct.2 behind

/-- A declared local has the type that its declaration tells. -/
theorem Lowers.recorded {outside : BindingId → Prop} {inLoop : Bool} {state later : BodyState}
    {fragment : Fragment} (lowers : Lowers inLoop state later fragment)
    (surrounds : state.Surrounds outside) {id : BindingId} {type : TypeId}
    (member : (id, some type) ∈ fragment.declarations) : later.bindingTypes.lookup id = some type := by
  obtain ⟨more, types, each⟩ := lowers.records
  have within := lowers.binds.declarations_within
  have given := (within.between id (List.mem_map_of_mem member)).1
  have unknown : state.bindingTypes.lookup id = none := by
    refine List.lookup_eq_none_iff.mpr fun entry before => ?_
    have below := surrounds.given entry before
    exact bne_iff_ne.mpr (Int.ne_of_gt (Int.lt_of_lt_of_le below given))
  rw [types, List.lookup_append, unknown, Option.none_or]
  exact lookup_of_recorded each within.distinct member

end BodyState

namespace BodyM

open Attempt BodyState

variable (context : BodyContext)

theorem Bound.surrounds {outside : BindingId → Prop} {name : String} {type : TypeId}
    {state later : BodyState} (bound : Bound name type state later)
    (surrounds : state.Surrounds outside) :
    later.Surrounds fun binding => outside binding ∨ binding = state.nextBinding where
  positive := by
    rw [bound.next]
    exact Int.le_trans surrounds.positive (Int.le_add_one (Int.le_refl _))
  typed := bound.typed surrounds.typed
  descending := by
    have declares : Binds false state.nextBinding state.visible
        (.statement (.declare {} name none none false (some state.nextBinding)))
        (state.nextBinding + 1) ((name, state.nextBinding) :: state.visible) := .declare ..
    rw [bound.next, bound.visible]
    exact declares.descending surrounds.descending
  named entry member := by
    rw [bound.visible] at member
    rcases List.mem_cons.mp member with rfl | before
    · exact .inr rfl
    · exact .inl (surrounds.named entry before)
  given entry member := by
    rw [bound.types, List.mem_append, List.mem_singleton] at member
    rw [bound.next]
    rcases member with before | rfl
    · exact Int.lt_add_one_of_le (Int.le_of_lt (surrounds.given entry before))
    · exact Int.lt_add_one_of_le (Int.le_refl _)
  below binding given := by
    rw [bound.next]
    rcases given with before | rfl
    · exact Int.lt_add_one_of_le (Int.le_of_lt (surrounds.below binding before))
    · exact Int.lt_add_one_of_le (Int.le_refl _)

/-- Around a procedure the names of its parameters are visible. -/
theorem lowerParams_surrounds (members : List (Surface.Member × TypeId))
    {outside : BindingId → Prop} {state later : BodyState} {params : List Param}
    (run : lowerParams context members state = .ok params later)
    (surrounds : state.Surrounds outside) :
    later.Surrounds fun binding => outside binding ∨ some binding ∈ params.map Param.binding := by
  induction members generalizing outside state params with
  | nil =>
      obtain ⟨rfl, rfl⟩ := EStateM.Result.ok.inj run
      simpa using surrounds
  | cons member members ih =>
      obtain ⟨id, middle, bindRun, run⟩ := bind_eq_ok.mp run
      obtain ⟨rest, last, restRun, run⟩ := bind_eq_ok.mp run
      obtain ⟨rfl, rfl⟩ := EStateM.Result.ok.inj run
      obtain ⟨rfl, bound⟩ := bind_bound bindRun
      have others := ih restRun (bound.surrounds surrounds)
      simpa [or_assoc] using others

theorem numberParams_bindings (params : List Param) (first : NodeId) :
    (numberParams params first).1.map Param.binding = params.map Param.binding := by
  induction params generalizing first with
  | nil => rfl
  | cons param params ih => simp [numberParams, ih]

/-- A binding that is given in the body of a procedure is that of a local. -/
theorem isLocal_of_enters {params : List Param} {resultBinding : Option BindingId} {state : BodyState}
    (enters : BodyState.Enters params resultBinding state) {note : Note} {name : String} {result : TypeId} {body : Block}
    {first : NodeId} {binding : BindingId} (later : state.nextBinding ≤ binding) :
    (Procedure.number ⟨note, name, params, result, body, resultBinding⟩ first).1.IsLocal binding := by
  have outside := fun given => Int.not_lt.mpr later (enters.surrounds.below binding given)
  refine ⟨fun isParam => outside (.inl ?_), fun isResult => outside (.inr isResult)⟩
  rwa [Procedure.number, numberParams_bindings] at isParam

theorem lowerParams_visible (members : List (Surface.Member × TypeId)) {state later : BodyState}
    {params : List Param} (run : lowerParams context members state = .ok params later) :
    later.visible = paramNames params ++ state.visible := by
  induction members generalizing state params with
  | nil =>
      obtain ⟨rfl, rfl⟩ := EStateM.Result.ok.inj run
      rfl
  | cons member members ih =>
      obtain ⟨id, middle, bindRun, run⟩ := bind_eq_ok.mp run
      obtain ⟨rest, last, restRun, run⟩ := bind_eq_ok.mp run
      obtain ⟨rfl, rfl⟩ := EStateM.Result.ok.inj run
      obtain ⟨rfl, bound⟩ := bind_bound bindRun
      rw [ih restRun, bound.visible]
      simp [paramNames]

theorem lowerParams_declarations (members : List (Surface.Member × TypeId)) {state later : BodyState}
    {params : List Param} (run : lowerParams context members state = .ok params later) :
    later.declarations = state.declarations := by
  induction members generalizing state params with
  | nil =>
      obtain ⟨rfl, rfl⟩ := EStateM.Result.ok.inj run
      rfl
  | cons member members ih =>
      obtain ⟨id, middle, bindRun, run⟩ := bind_eq_ok.mp run
      obtain ⟨rest, last, restRun, run⟩ := bind_eq_ok.mp run
      obtain ⟨rfl, rfl⟩ := EStateM.Result.ok.inj run
      obtain ⟨rfl, rfl⟩ := EStateM.Result.ok.inj bindRun
      have kept := ih restRun
      exact kept

/-- A procedure is lowered in three steps: its parameters are bound, then its implicit result unless
its result has the type without values, then the body is lowered. -/
theorem lowerProcedure_enters {proc : Surface.ProcDecl} {signature : Signature}
    {declarations : Declarations} {procedure : Procedure} {final : BodyState}
    (run : lowerProcedure context proc signature { declarations := declarations } =
      .ok procedure final) :
    ∃ params resultBinding state body, BodyState.Enters params resultBinding state ∧
      lowerBlock context false proc.body state = .ok body final ∧
      procedure = (Procedure.number
        ⟨noteAt context proc.place, proc.name, params, signature.result, body, resultBinding⟩ 1).1 ∧
      ∀ type, declarations.table.get signature.result = .ok type →
        (resultBinding.isSome = true ↔ type.kind ≠ .void) := by
  have surrounds : BodyState.Surrounds (fun _ => False) { declarations := declarations } :=
    { positive := Int.le_refl 1
      typed := fun id positive below => absurd (Int.lt_of_lt_of_le below positive) (Int.lt_irrefl id)
      descending := List.pairwise_singleton _ _
      named := by simp [BodyState.visible]
      given := by simp
      below := by simp }
  obtain ⟨params, second, paramsRun, run⟩ := bind_eq_ok.mp run
  have withParams := lowerParams_surrounds context _ paramsRun surrounds
  have names : second.visible = paramNames params :=
    (lowerParams_visible context _ paramsRun).trans (List.append_nil _)
  obtain ⟨result, third, asked, rest⟩ := bind_eq_ok.mp run
  obtain ⟨_, _, got, given⟩ := bind_eq_ok.mp asked
  obtain ⟨rfl, rfl⟩ := EStateM.Result.ok.inj got
  obtain ⟨isType, rfl⟩ := ofExcept_eq_ok.mp given
  rw [lowerParams_declarations context _ paramsRun] at isType
  have same {type : TypeDef} (found : declarations.table.get signature.result = .ok type) : type = result :=
    Except.ok.inj (found.symm.trans isType)
  split at rest
  · rename_i isVoid
    obtain ⟨_, _, chosen, rest⟩ := bind_eq_ok.mp rest
    obtain ⟨rfl, rfl⟩ := EStateM.Result.ok.inj chosen
    obtain ⟨body, last, bodyRun, rest⟩ := bind_eq_ok.mp rest
    obtain ⟨rfl, rfl⟩ := EStateM.Result.ok.inj rest
    refine ⟨params, none, _, body, ⟨by simpa using withParams, by simpa using names, nofun⟩, bodyRun, rfl, ?_⟩
    intro type found
    simp [same found, isVoid]
  · rename_i notVoid
    obtain ⟨_, _, chosen, rest⟩ := bind_eq_ok.mp rest
    rw [map_eq_pure_bind] at chosen
    obtain ⟨id, fourth, bindRun, chosen⟩ := bind_eq_ok.mp chosen
    obtain ⟨rfl, rfl⟩ := EStateM.Result.ok.inj chosen
    obtain ⟨body, last, bodyRun, rest⟩ := bind_eq_ok.mp rest
    obtain ⟨rfl, rfl⟩ := EStateM.Result.ok.inj rest
    obtain ⟨rfl, bound⟩ := bind_bound bindRun
    have withResult := bound.surrounds withParams
    refine ⟨params, some _, _, body, ⟨by simpa [eq_comm] using withResult, ?_, ?_⟩, bodyRun, rfl, ?_⟩
    · rw [bound.visible, names]
      rfl
    · intro id isResult isParam
      obtain rfl := Option.some.inj isResult
      exact Int.lt_irrefl _ (withParams.below _ (.inr isParam))
    · intro type found
      simp [same found, notVoid]

/-- What a procedure is lowered to is bound from the first binding that its parameters and
its result leave free, and its nodes are numbered. -/
theorem lowerProcedure_boundFrom {proc : Surface.ProcDecl} {signature : Signature}
    {declarations : Declarations} {procedure : Procedure} {final : BodyState}
    (run : lowerProcedure context proc signature { declarations := declarations } =
      .ok procedure final) :
    (∃ first names, procedure.BoundFrom final.bindingTypes first final.nextBinding names) ∧
      ∃ (body : Block) (start : NodeId), procedure.body = (body.number start).1 := by
  obtain ⟨params, resultBinding, state, body, enters, bodyRun, rfl, -⟩ := lowerProcedure_enters context run
  have surrounds := enters.surrounds
  have lowers := lowerBlock_lowers context false proc.body false bodyRun
  refine ⟨⟨state.nextBinding, state.visible, ?_, surrounds.descending, ?_, ?_, ?_, ?_⟩, body, _, rfl⟩
  · have binds := lowers.binds.numbered (numberParams params (1 + 1)).2
    rw [lowers.binds.seen_of_block] at binds
    exact binds
  · rintro entry member ⟨noParam, noResult⟩
    rw [Procedure.number, numberParams_bindings] at noParam
    rcases surrounds.named entry member with isParam | isResult
    · exact noParam isParam
    · exact noResult isResult
  · exact fun binding later => isLocal_of_enters enters later
  · intro id later below
    exact lowers.typed surrounds.typed id (Int.le_trans surrounds.positive later) below
  · intro id type member
    have unnumbered := lowers.binds.declarations_numbered (numberParams params (1 + 1)).2
    exact lowers.recorded surrounds (unnumbered ▸ member)

end BodyM

/-- A procedure is lowered from some declaration, with the types of its bindings. -/
def Procedure.IsLowered (procedure : Procedure) (types : BindingTypes) : Prop :=
  ∃ context proc signature declarations final,
    BodyM.lowerProcedure context proc signature { declarations := declarations } =
      .ok procedure final ∧ final.bindingTypes = types

/-- A procedure is lowered from its declaration, where others were made before. -/
def LoweredProcedure.LoweredFrom (lowered : LoweredProcedure) (context : BodyContext) (proc : Surface.ProcDecl)
    (declarations : Declarations) : Prop :=
  ∃ final, BodyM.lowerProcedure context proc lowered.signature { declarations := declarations } =
    .ok lowered.procedure final ∧ final.bindingTypes = lowered.bindingTypes

namespace DeclareM

/-- The procedures that are to be lowered are among those whose heads are collected. -/
theorem collectHeads_procs {file : Option String} {heads collected : Heads} (procs : List Surface.ProcDecl)
    {declarations later : Declarations} (run : collectHeads file heads procs declarations = .ok collected later) :
    ∀ entry ∈ collected.procedures, entry ∈ heads.procedures ∨ entry.1 ∈ procs := by
  induction procs generalizing heads declarations with
  | nil =>
      obtain ⟨rfl, rfl⟩ := EStateM.Result.ok.inj run
      exact fun entry member => .inl member
  | cons proc procs ih =>
      have added {signature : Signature} {entry : Surface.ProcDecl × Signature}
          (known : entry ∈ heads.procedures ++ [(proc, signature)] ∨ entry.1 ∈ procs) :
          entry ∈ heads.procedures ∨ entry.1 ∈ proc :: procs := by
        rcases known with known | behind
        · rcases List.mem_append.mp known with before | here
          · exact .inl before
          · exact .inr (List.mem_singleton.mp here ▸ List.mem_cons_self)
        · exact .inr (List.mem_cons_of_mem _ behind)
      obtain ⟨signature, middle, _, run⟩ := Attempt.bind_eq_ok.mp run
      split at run
      · obtain ⟨hook, last, _, run⟩ := Attempt.bind_eq_ok.mp run
        exact fun entry member => added (ih run entry member)
      · split at run
        · obtain ⟨_, last, _, run⟩ := Attempt.bind_eq_ok.mp run
          exact fun entry member => (ih run entry member).imp_right (List.mem_cons_of_mem _)
        · exact fun entry member => added (ih run entry member)

/-- All procedures are lowered from their declarations. -/
theorem lowerBodies_from {file : Option String} {fuel : Nat} {signatures : List (String × Signature)}
    (procs : List (Surface.ProcDecl × Signature)) {declarations later : Declarations} {lowered : List LoweredProcedure}
    (run : lowerBodies file fuel signatures procs declarations = .ok lowered later) :
    ∀ one ∈ lowered, ∃ proc, (proc, one.signature) ∈ procs ∧ ∃ before,
      one.LoweredFrom ⟨file, TypeVars.of proc.typeParams one.signature.typeVars, signatures, fuel⟩ proc before := by
  induction procs generalizing declarations lowered with
  | nil =>
      obtain ⟨rfl, rfl⟩ := EStateM.Result.ok.inj run
      simp
  | cons head procs ih =>
      obtain ⟨one, middle, oneRun, rest⟩ := Attempt.bind_eq_ok.mp run
      obtain ⟨others, last, othersRun, rest⟩ := Attempt.bind_eq_ok.mp rest
      obtain ⟨rfl, rfl⟩ := EStateM.Result.ok.inj rest
      intro other member
      rcases List.mem_cons.mp member with rfl | behind
      · split at oneRun
        · rename_i found state lower
          obtain ⟨rfl, rfl⟩ := EStateM.Result.ok.inj oneRun
          obtain ⟨procedure, before, procedureRun, lower⟩ := Attempt.bind_eq_ok.mp lower
          obtain ⟨rfl, rfl⟩ := EStateM.Result.ok.inj lower
          exact ⟨head.1, List.mem_cons_self, declarations, _, procedureRun, rfl⟩
        · cases oneRun
      · obtain ⟨proc, inside, isFrom⟩ := ih othersRun other behind
        exact ⟨proc, List.mem_cons_of_mem _ inside, isFrom⟩

end DeclareM

namespace LoweredProgram

variable {file : Option String} {fuel : Nat} {source : Surface.Program} {program : LoweredProgram}

/-- All procedures of a program are lowered from declarations of its text. -/
theorem loweredFrom (run : ofProgram file fuel source = .ok program) :
    ∀ one ∈ program.procedures, ∃ proc ∈ source.procs, ∃ signatures before,
      one.LoweredFrom ⟨file, TypeVars.of proc.typeParams one.signature.typeVars, signatures, fuel⟩ proc before := by
  unfold ofProgram at run
  dsimp only at run
  split at run
  · rename_i types heads procedures declarations lower
    obtain rfl := Except.ok.inj run
    obtain ⟨_, _, _, lower⟩ := Attempt.bind_eq_ok.mp lower
    obtain ⟨_, _, _, lower⟩ := Attempt.bind_eq_ok.mp lower
    obtain ⟨_, _, collects, lower⟩ := Attempt.bind_eq_ok.mp lower
    obtain ⟨_, _, bodies, lower⟩ := Attempt.bind_eq_ok.mp lower
    obtain ⟨same, rfl⟩ := EStateM.Result.ok.inj lower
    obtain ⟨rfl, rfl, rfl⟩ := same
    intro one member
    obtain ⟨proc, inside, before, isFrom⟩ := DeclareM.lowerBodies_from _ bodies one member
    rcases DeclareM.collectHeads_procs _ collects _ inside with none | collected
    · cases none
    · exact ⟨proc, collected, _, before, isFrom⟩
  · cases run

theorem isLowered (run : ofProgram file fuel source = .ok program) :
    ∀ one ∈ program.procedures, one.procedure.IsLowered one.bindingTypes := by
  intro one member
  obtain ⟨proc, _, signatures, before, final, lowers, types⟩ := loweredFrom run one member
  exact ⟨_, proc, _, before, final, lowers, types⟩

end LoweredProgram
end LifecycleHooks

import LifecycleHooks.Proofs.Procedure.Typing
import LifecycleHooks.Proofs.Program.Lowering

/-!
# Computed types

The types of the expressions of a body are computed while it is lowered.  They can be listed
from the text of the body alone, each computed in the state in which its expression is met, a
type before those of the parts of its expression.  The nodes of the lowered body tell these
types, and every one of them is known.
-/

namespace LifecycleHooks
namespace BodyM

open Attempt

section Listing

/-- The type of an expression: that of what a name stands for, of a literal, of what a call
gives or of a field, found when everything inside the expression is lowered. -/
def typeExpr (context : BodyContext) : Surface.Expr → BodyM (Option TypeId)
  | .name place name => do
      match ← lookup name with
      | some binding => return some binding.type
      | none => do
          report context .unknownName place s!"unknown name '{name}'"
          return some (← onTable TableM.unknown)
  | .integer .. => return some (← onTable TableM.int)
  | .boolean .. => return some (← onTable TableM.bool)
  | .call place callee args => do
      let args ← lowerExprs context args
      return some (← typeCall context place callee args)
  | .field place subject name => do
      match (← lowerExpr context subject).type with
      | none => return none
      | some owner => return some (← typeField context place owner name)

/-- The type that is computed for an expression that is met in a state. -/
def computed (context : BodyContext) (expr : Surface.Expr) (state : BodyState) : Option TypeId :=
  ((typeExpr context expr).result? state).join

mutual

/-- The types that are computed for an expression that is met in a state and for everything
inside it. -/
def exprTypes (context : BodyContext) : Surface.Expr → BodyState → List (Option TypeId)
  | .name place name, state => [computed context (.name place name) state]
  | .integer place value, state => [computed context (.integer place value) state]
  | .boolean place value, state => [computed context (.boolean place value) state]
  | .call place callee args, state => computed context (.call place callee args) state :: exprsTypes context args state
  | .field place subject name, state =>
      computed context (.field place subject name) state :: exprTypes context subject state

/-- The types that are computed for expressions that are lowered one after the other. -/
def exprsTypes (context : BodyContext) : List Surface.Expr → BodyState → List (Option TypeId)
  | [], _ => []
  | expr :: rest, state => exprTypes context expr state ++ exprsTypes context rest ((lowerExpr context expr).finish state)

end

mutual

/-- The types that are computed for the expressions of a statement. -/
def stmtTypes (context : BodyContext) (inLoop : Bool) : Surface.Stmt → BodyState → List (Option TypeId)
  | .declare _ _ _ value _, state => exprsTypes context value.toList state
  | .assign _ target value, state => exprsTypes context [target, value] state
  | .expr _ inner, state => exprTypes context inner state
  | .return _ value, state => exprsTypes context value.toList state
  | .branch _ condition yes none, state =>
      exprTypes context condition state ++ blockTypes context inLoop yes ((lowerExpr context condition).finish state)
  | .branch _ condition yes (some no), state =>
      let entered := (lowerExpr context condition).finish state
      exprTypes context condition state ++ blockTypes context inLoop yes entered ++
        blockTypes context inLoop no ((lowerBlock context inLoop yes).finish entered)
  | .loop _ condition body, state =>
      exprTypes context condition state ++ blockTypes context true body ((lowerExpr context condition).finish state)
  | .break _, _ | .continue _, _ => []
  | .block _ block, state => blockTypes context inLoop block state
  | .spawn _ operand, state => exprTypes context operand state

/-- The types that are computed for the expressions of a block, in a scope of its own. -/
def blockTypes (context : BodyContext) (inLoop : Bool) : Surface.Block → BodyState → List (Option TypeId)
  | .mk _ statements, state => stmtsTypes context inLoop statements { state with scopes := [] :: state.scopes }

/-- The types that are computed for the expressions of statements. -/
def stmtsTypes (context : BodyContext) (inLoop : Bool) : List Surface.Stmt → BodyState → List (Option TypeId)
  | [], _ => []
  | statement :: rest, state =>
      stmtTypes context inLoop statement state ++
        stmtsTypes context inLoop rest ((lowerStmt context inLoop statement).finish state)

end

end Listing

/-- Expressions have the listed types, all of which are known. -/
structure Carries (types : List (Option TypeId)) (exprs : List Expr) : Prop where
  told : exprs.map Expr.type = types
  known : ∀ expr ∈ exprs, expr.type.isSome

namespace Carries

variable {types others : List (Option TypeId)} {exprs more : List Expr}

theorem nil : Carries [] [] :=
  ⟨rfl, by simp⟩

theorem cons {type : Option TypeId} {expr : Expr} (told : expr.type = type) (known : expr.type.isSome)
    (rest : Carries types exprs) : Carries (type :: types) (expr :: exprs) :=
  ⟨by rw [List.map_cons, told, rest.told], List.forall_mem_cons.mpr ⟨known, rest.known⟩⟩

theorem append (first : Carries types exprs) (second : Carries others more) :
    Carries (types ++ others) (exprs ++ more) :=
  ⟨by rw [List.map_append, first.told, second.told], List.forall_mem_append.mpr ⟨first.known, second.known⟩⟩

end Carries

variable (context : BodyContext)

section Expressions

/-- Lowering an expression computes its type. -/
theorem map_type_lowerExpr (expr : Surface.Expr) : Expr.type <$> lowerExpr context expr = typeExpr context expr := by
  cases expr with
  | name place name =>
      simp only [lowerExpr, typeExpr, map_bind]
      refine bind_congr fun found => ?_
      cases found <;> simp [exprNoteAt, Expr.type, Expr.note]
  | integer place value => simp [lowerExpr, typeExpr, exprNoteAt, Expr.type, Expr.note]
  | boolean place value => simp [lowerExpr, typeExpr, exprNoteAt, Expr.type, Expr.note]
  | call place callee args => simp [lowerExpr, typeExpr, exprNoteAt, Expr.type, Expr.note]
  | field place subject name =>
      simp only [lowerExpr, typeExpr, map_bind]
      refine bind_congr fun lowered => ?_
      cases lowered.type <;> simp [exprNoteAt, Expr.type, Expr.note]

theorem lowerExpr_computed {expr : Surface.Expr} {state later : BodyState} {lowered : Expr}
    (run : lowerExpr context expr state = .ok lowered later) : lowered.type = computed context expr state := by
  have same := congrFun (map_type_lowerExpr context expr) state
  rw [map_eq_pure_bind, bind_run_of_ok run, pure_run] at same
  simp [computed, result?, ← same]

mutual

/-- A lowered expression and everything inside it carry the computed types. -/
theorem lowerExpr_carries : (expr : Surface.Expr) → {state later : BodyState} → {lowered : Expr} →
    lowerExpr context expr state = .ok lowered later → Carries (exprTypes context expr state) lowered.withParts
  | .name place name, state, later, lowered, run => by
      have type := lowerExpr_computed context run
      obtain ⟨found, middle, _, run⟩ := bind_eq_ok.mp run
      cases found with
      | some binding =>
          obtain ⟨rfl, rfl⟩ := EStateM.Result.ok.inj run
          exact Carries.nil.cons type rfl
      | none =>
          obtain ⟨_, _, _, run⟩ := bind_eq_ok.mp run
          obtain ⟨_, _, _, run⟩ := bind_eq_ok.mp run
          obtain ⟨rfl, rfl⟩ := EStateM.Result.ok.inj run
          exact Carries.nil.cons type rfl
  | .integer place value, state, later, lowered, run => by
      have type := lowerExpr_computed context run
      obtain ⟨_, _, _, run⟩ := bind_eq_ok.mp run
      obtain ⟨rfl, rfl⟩ := EStateM.Result.ok.inj run
      exact Carries.nil.cons type rfl
  | .boolean place value, state, later, lowered, run => by
      have type := lowerExpr_computed context run
      obtain ⟨_, _, _, run⟩ := bind_eq_ok.mp run
      obtain ⟨rfl, rfl⟩ := EStateM.Result.ok.inj run
      exact Carries.nil.cons type rfl
  | .call place callee args, state, later, lowered, run => by
      have type := lowerExpr_computed context run
      obtain ⟨inner, middle, argsRun, run⟩ := bind_eq_ok.mp run
      have inside := lowerExprs_carries args argsRun
      obtain ⟨_, _, _, run⟩ := bind_eq_ok.mp run
      obtain ⟨rfl, rfl⟩ := EStateM.Result.ok.inj run
      exact inside.cons type rfl
  | .field place subject name, state, later, lowered, run => by
      have type := lowerExpr_computed context run
      obtain ⟨inner, middle, subjectRun, run⟩ := bind_eq_ok.mp run
      have inside := lowerExpr_carries subject subjectRun
      -- A field has no type only where its subject has none.
      obtain ⟨owner, typed⟩ := Option.isSome_iff_exists.mp (inside.known inner inner.mem_withParts)
      rw [typed] at run
      obtain ⟨_, _, _, run⟩ := bind_eq_ok.mp run
      obtain ⟨rfl, rfl⟩ := EStateM.Result.ok.inj run
      exact inside.cons type rfl

/-- Lowered expressions and everything inside them carry the computed types. -/
theorem lowerExprs_carries : (exprs : List Surface.Expr) → {state later : BodyState} → {lowered : List Expr} →
    lowerExprs context exprs state = .ok lowered later → Carries (exprsTypes context exprs state) (partsOf lowered)
  | [], state, later, lowered, run => by
      obtain ⟨rfl, rfl⟩ := EStateM.Result.ok.inj run
      exact .nil
  | expr :: rest, state, later, lowered, run => by
      obtain ⟨first, middle, firstRun, run⟩ := bind_eq_ok.mp run
      obtain ⟨others, last, restRun, run⟩ := bind_eq_ok.mp run
      obtain ⟨rfl, rfl⟩ := EStateM.Result.ok.inj run
      rw [exprsTypes, finish_of_ok firstRun]
      exact (lowerExpr_carries expr firstRun).append (lowerExprs_carries rest restRun)

end

theorem lowerExpr?_carries {expr : Option Surface.Expr} {state later : BodyState} {lowered : Option Expr}
    (run : lowerExpr? context expr state = .ok lowered later) :
    Carries (exprsTypes context expr.toList state) (partsOf lowered.toList) := by
  cases expr with
  | none =>
      obtain ⟨rfl, rfl⟩ := EStateM.Result.ok.inj run
      exact .nil
  | some expr =>
      obtain ⟨inner, middle, innerRun, run⟩ := bind_eq_ok.mp run
      obtain ⟨rfl, rfl⟩ := EStateM.Result.ok.inj run
      exact (lowerExpr_carries context expr innerRun).append .nil

end Expressions

section Statements

theorem lowerDeclaration_carries {place : Position} {name : String} {type : Option Surface.TypeExpr}
    {value : Option Surface.Expr} {mutability : Bool} {state later : BodyState} {lowered : Stmt}
    (run : lowerDeclaration context place name type value mutability state = .ok lowered later) :
    Carries (exprsTypes context value.toList state) (exprsAmong lowered.nodes) := by
  obtain ⟨inner, _, valueRun, run⟩ := bind_eq_ok.mp run
  have inside := lowerExpr?_carries context valueRun
  rw [← exprsAmong_exprNodes] at inside
  obtain ⟨declared, _, _, run⟩ := bind_eq_ok.mp run
  cases found : declared.or (inner.bind Expr.type) with
  | some type =>
      rw [found] at run
      obtain ⟨binding, _, _, run⟩ := bind_eq_ok.mp run
      obtain ⟨rfl, rfl⟩ := EStateM.Result.ok.inj run
      exact inside
  | none =>
      rw [found] at run
      obtain ⟨_, _, _, run⟩ := bind_eq_ok.mp run
      obtain ⟨unknown, _, _, run⟩ := bind_eq_ok.mp run
      obtain ⟨binding, _, _, run⟩ := bind_eq_ok.mp run
      obtain ⟨rfl, rfl⟩ := EStateM.Result.ok.inj run
      exact inside

/-- A `break` or a `continue` has no expressions, whether it is kept or left out. -/
theorem lowerControl_carries {inLoop : Bool} {place : Position} {word : String} {control : Note → Stmt}
    {state later : BodyState} {lowered : Option Stmt} (none : ∀ note, exprsAmong (control note).nodes = [])
    (run : lowerControl context inLoop place word control state = .ok lowered later) :
    Carries [] (exprsAmong (nodesOf lowered.toList)) := by
  unfold lowerControl at run
  split at run
  · obtain ⟨rfl, rfl⟩ := EStateM.Result.ok.inj run
    have empty : exprsAmong (nodesOf [control (noteAt context place)]) = [] := by
      rw [nodesOf, exprsAmong_append, none]
      rfl
    exact empty ▸ .nil
  · obtain ⟨_, _, _, run⟩ := bind_eq_ok.mp run
    obtain ⟨rfl, rfl⟩ := EStateM.Result.ok.inj run
    exact .nil

theorem Carries.single {types : List (Option TypeId)} {statement : Stmt}
    (carries : Carries types (exprsAmong statement.nodes)) : Carries types (exprsAmong (nodesOf [statement])) := by
  simpa [nodesOf] using carries

mutual

/-- The nodes of a lowered statement carry the types that are computed for its expressions. -/
theorem lowerStmt_carries (inLoop : Bool) : (statement : Surface.Stmt) → {state later : BodyState} →
    {lowered : Option Stmt} → lowerStmt context inLoop statement state = .ok lowered later →
      Carries (stmtTypes context inLoop statement state) (exprsAmong (nodesOf lowered.toList))
  | .declare place name type value mutability, state, later, lowered, run => by
      obtain ⟨statement, _, declared, run⟩ := bind_eq_ok.mp run
      obtain ⟨rfl, rfl⟩ := EStateM.Result.ok.inj run
      exact (lowerDeclaration_carries context declared).single
  | .assign place target value, state, later, lowered, run => by
      obtain ⟨first, middle, targetRun, run⟩ := bind_eq_ok.mp run
      obtain ⟨second, last, valueRun, run⟩ := bind_eq_ok.mp run
      obtain ⟨rfl, rfl⟩ := EStateM.Result.ok.inj run
      have both := (lowerExpr_carries context target targetRun).append (lowerExpr_carries context value valueRun)
      simpa [stmtTypes, exprsTypes, finish_of_ok targetRun, nodesOf, Stmt.nodes, partsOf] using both
  | .expr place inner, state, later, lowered, run => by
      obtain ⟨expr, middle, innerRun, run⟩ := bind_eq_ok.mp run
      obtain ⟨rfl, rfl⟩ := EStateM.Result.ok.inj run
      have inside := lowerExpr_carries context inner innerRun
      simpa [stmtTypes, nodesOf, Stmt.nodes, partsOf] using inside
  | .return place value, state, later, lowered, run => by
      obtain ⟨expr, middle, valueRun, run⟩ := bind_eq_ok.mp run
      obtain ⟨rfl, rfl⟩ := EStateM.Result.ok.inj run
      have inside := lowerExpr?_carries context valueRun
      simpa [stmtTypes, nodesOf, Stmt.nodes] using inside
  | .branch place condition yes none, state, later, lowered, run => by
      obtain ⟨test, first, conditionRun, run⟩ := bind_eq_ok.mp run
      obtain ⟨ifYes, last, yesRun, run⟩ := bind_eq_ok.mp run
      obtain ⟨rfl, rfl⟩ := EStateM.Result.ok.inj run
      have all := (lowerExpr_carries context condition conditionRun).append (lowerBlock_carries inLoop yes yesRun)
      simpa [stmtTypes, finish_of_ok conditionRun, nodesOf, Stmt.nodes, partsOf] using all
  | .branch place condition yes (some no), state, later, lowered, run => by
      obtain ⟨test, first, conditionRun, run⟩ := bind_eq_ok.mp run
      obtain ⟨ifYes, second, yesRun, run⟩ := bind_eq_ok.mp run
      obtain ⟨ifNo, last, noRun, run⟩ := bind_eq_ok.mp run
      obtain ⟨rfl, rfl⟩ := EStateM.Result.ok.inj run
      have all := ((lowerExpr_carries context condition conditionRun).append
        (lowerBlock_carries inLoop yes yesRun)).append (lowerBlock_carries inLoop no noRun)
      simpa [stmtTypes, finish_of_ok conditionRun, finish_of_ok yesRun, nodesOf, Stmt.nodes, partsOf] using all
  | .loop place condition body, state, later, lowered, run => by
      obtain ⟨test, first, conditionRun, run⟩ := bind_eq_ok.mp run
      obtain ⟨inner, last, bodyRun, run⟩ := bind_eq_ok.mp run
      obtain ⟨rfl, rfl⟩ := EStateM.Result.ok.inj run
      have all := (lowerExpr_carries context condition conditionRun).append (lowerBlock_carries true body bodyRun)
      simpa [stmtTypes, finish_of_ok conditionRun, nodesOf, Stmt.nodes, partsOf] using all
  | .break place, state, later, lowered, run => lowerControl_carries context (fun _ => rfl) run
  | .continue place, state, later, lowered, run => lowerControl_carries context (fun _ => rfl) run
  | .block _ block, state, later, lowered, run => by
      obtain ⟨inner, last, blockRun, run⟩ := bind_eq_ok.mp run
      obtain ⟨rfl, rfl⟩ := EStateM.Result.ok.inj run
      exact (lowerBlock_carries inLoop block blockRun : Carries _ (exprsAmong (Stmt.block inner).nodes)).single
  | .spawn place operand, state, later, lowered, run => by
      obtain ⟨call, middle, callRun, run⟩ := bind_eq_ok.mp run
      have inside := lowerExpr_carries context operand callRun
      split at run
      · obtain ⟨rfl, rfl⟩ := EStateM.Result.ok.inj run
        simpa [stmtTypes, nodesOf, Stmt.nodes, partsOf] using inside
      · cases run

/-- The nodes of a lowered block carry the types that are computed for its expressions. -/
theorem lowerBlock_carries (inLoop : Bool) : (block : Surface.Block) → {state later : BodyState} →
    {lowered : Block} → lowerBlock context inLoop block state = .ok lowered later →
      Carries (blockTypes context inLoop block state) (exprsAmong lowered.nodes)
  | .mk place statements, state, later, lowered, run => by
      obtain ⟨inner, _, within, run⟩ := bind_eq_ok.mp run
      obtain ⟨rfl, rfl⟩ := EStateM.Result.ok.inj run
      obtain ⟨_, entered, enter, within⟩ := bind_eq_ok.mp within
      obtain ⟨rfl, rfl⟩ := EStateM.Result.ok.inj enter
      obtain ⟨result, _, inside, within⟩ := bind_eq_ok.mp within
      obtain ⟨_, _, _, within⟩ := bind_eq_ok.mp within
      obtain ⟨rfl, rfl⟩ := EStateM.Result.ok.inj within
      exact lowerStmts_carries inLoop statements inside

/-- The nodes of lowered statements carry the types that are computed for their expressions. -/
theorem lowerStmts_carries (inLoop : Bool) : (statements : List Surface.Stmt) → {state later : BodyState} →
    {lowered : List Stmt} → lowerStmts context inLoop statements state = .ok lowered later →
      Carries (stmtsTypes context inLoop statements state) (exprsAmong (nodesOf lowered))
  | [], state, later, lowered, run => by
      obtain ⟨rfl, rfl⟩ := EStateM.Result.ok.inj run
      exact .nil
  | statement :: rest, state, later, lowered, run => by
      obtain ⟨first, middle, firstRun, run⟩ := bind_eq_ok.mp run
      obtain ⟨others, last, restRun, run⟩ := bind_eq_ok.mp run
      obtain ⟨rfl, rfl⟩ := EStateM.Result.ok.inj run
      have both := (lowerStmt_carries inLoop statement firstRun).append (lowerStmts_carries inLoop rest restRun)
      rwa [← exprsAmong_append, ← nodesOf_append, ← finish_of_ok firstRun] at both

end

end Statements

end BodyM
end LifecycleHooks

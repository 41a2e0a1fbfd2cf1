import LifecycleHooks.Proofs.Program.Typing
import LifecycleHooks.Proofs.Types.Matching
import Mathlib

/-!
# The types of generic calls

The type of a call is found by matching the types of its arguments with those of the
parameters.  Where the arguments have the types that an assignment of the type variables makes
of the parameters, up to outer modes, the call has the type that it makes of the result as soon
as every type variable of the result occurs in a parameter whose argument is not passed over.
An argument with a mode that its parameter does not have is passed over, so that type variables
can be left in the type of a call.
-/

namespace LifecycleHooks

namespace TypeTable

variable {table : TypeTable} {assign : TypeId → Option TypeTree} {vars : Set TypeId} {mapping : Substitution}

/-- A type variable occurs in a parameter whose argument is not passed over. -/
def Finds (table : TypeTable) (params args : List TypeId) (id : TypeId) : Prop :=
  ∃ pair ∈ params.zip args, ¬ table.PassesOver pair.1 pair.2 ∧ (table.tree pair.1).Mentions id

/-- The arguments of a call have the types that an assignment makes of those of the parameters, up to
outer modes.  It assigns types without variables to the type variables of the signature. -/
structure Explains (table : TypeTable) (assign : TypeId → Option TypeTree) (signature : Signature)
    (args : List TypeId) : Prop where
  assigned : ∀ id, (assign id).isSome = true ↔ id ∈ signature.typeVars
  closed : ∀ id tree, assign id = some tree → tree.IsClosed
  params : ∀ param ∈ signature.params, ∀ id, (table.tree param).Mentions id → id ∈ signature.typeVars
  args : List.Forall₂ (fun param arg => (table.tree arg).value = ((table.tree param).substitute assign).value)
    signature.params args

/-- A parameter that is a type variable has an argument of the very type that it is assigned. -/
def TakesBare (table : TypeTable) (assign : TypeId → Option TypeTree) (params args : List TypeId) : Prop :=
  ∀ pair ∈ params.zip args, ∀ name, table.get? pair.1 = some (.typevar name) →
    assign pair.1 = some (table.tree pair.2)

theorem Explains.suits {signature : Signature} {args : List TypeId} (explains : table.Explains assign signature args)
    (known : signature.Known table) (has : ∀ arg ∈ args, table.Has arg) :
    ∀ pair ∈ signature.params.zip args, table.Suits assign pair.1 pair.2 := by
  intro pair member
  obtain ⟨isParam, isArg⟩ := List.of_mem_zip member
  refine ⟨known.params pair.1 isParam, has pair.2 isArg, fun id mentions => ?_, ?_⟩
  · exact (explains.assigned id).mpr (explains.params pair.1 isParam id mentions)
  · exact (List.forall₂_iff_zip.mp explains.args).2 member

/-- A signature without type variables leaves nothing to be found. -/
theorem Explains.finds_nothing {signature : Signature} {args : List TypeId}
    (explains : table.Explains assign signature args) (plain : signature.typeVars = []) (id : TypeId) :
    ¬ table.Finds signature.params args id := by
  rintro ⟨pair, member, -, mentions⟩
  have isVar := explains.params pair.1 (List.of_mem_zip member).1 id mentions
  rw [plain] at isVar
  cases isVar

end TypeTable

namespace BodyM

open BodyState Attempt TypeTable

variable {context : BodyContext} {state middle : BodyState} {callee : String} {signature : Signature}
  {args : List Expr} {types : List TypeId} {assign : TypeId → Option TypeTree}

theorem onTable_run {Result : Type} {action : TableM Result} {result : Result} {larger : TypeTable}
    (run : action state.table = .ok result larger) :
    ∃ later, onTable action state = .ok result later ∧ later.table = larger := by
  have declared : DeclareM.onTable action state.declarations =
      .ok result { state.declarations with table := larger } := onPart_eq_ok.mpr ⟨larger, run, rfl⟩
  refine ⟨{ state with declarations := { state.declarations with table := larger } }, ?_, rfl⟩
  unfold onTable onDeclarations
  rw [onPart_eq_ok]
  exact ⟨_, declared, rfl⟩

/-- The types of typed arguments stand next to those of their parameters. -/
theorem filterMap_typed {params : List TypeId} (typed : args.map Expr.type = types.map some) :
    ((params.zip args).filterMap fun (param, arg) => arg.type.map fun type => (param, type)) = params.zip types := by
  induction params generalizing args types with
  | nil => rfl
  | cons param params ih =>
      cases args with
      | nil =>
          rw [List.map_eq_nil_iff.mp typed.symm]
          rfl
      | cons arg args =>
          cases types with
          | nil => cases typed
          | cons type types =>
              obtain ⟨first, rest⟩ := List.cons.inj typed
              simp [first, ih rest]

/-- A call of a declared procedure has the type that what matching finds makes of its result. -/
theorem typeCall_substitutes (sound : state.Sound) (known : context.Known state.table)
    (closed : state.table.DistinctsClosed) (place : Position) (declared : context.signatures.lookup callee = some signature)
    (typed : args.map Expr.type = types.map some) (has : ∀ type ∈ types, state.table.Has type)
    (explains : state.table.Explains assign signature types) (bare : state.table.TakesBare assign signature.params types) :
    ∃ type later mapping, typeCall context place callee args state = .ok type later ∧
      state.table.Solves assign {id | state.table.Finds signature.params types id} mapping ∧
      state.table.Substituted mapping later.table signature.result type := by
  have signatureKnown := known.signatures _ (mem_of_lookup declared)
  have wellFormed := sound.declarations.proper.toWellFormed
  have sameLength : args.length = signature.params.length := by
    have lengths := congrArg List.length typed
    rw [List.length_map, List.length_map] at lengths
    exact lengths.trans explains.args.length_eq.symm
  unfold typeCall
  rw [declared]
  dsimp only
  rw [if_neg (not_not.mpr sameLength)]
  split
  · rename_i plain
    have nothing := explains.finds_nothing (List.isEmpty_iff.mp plain)
    refine ⟨signature.result, state, [], rfl, solves_nil.congr ?_, signatureKnown.result, ?_⟩
    · exact (Set.eq_empty_of_forall_notMem nothing).symm
    · exact (TypeTree.substitute_eq_self fun _ _ => rfl).symm
  · obtain ⟨mapping, answers, solves⟩ :=
      matchArguments_suits wellFormed closed (explains.suits signatureKnown has) bare
    obtain ⟨type, larger, run, substituted⟩ := TableM.substitute_substituted wellFormed
      (fun pair member => (solves.values pair member).1) signatureKnown.result
    obtain ⟨later, onTable, rfl⟩ := onTable_run run
    refine ⟨type, later, mapping, ?_, solves, substituted⟩
    have sameLength := List.forall₂_iff_zip.mp explains.args |>.1
    rw [filterMap_typed typed, List.map_fst_zip (le_of_eq sameLength), List.map_snd_zip (le_of_eq sameLength.symm),
      bind_run_of_ok (ask_run answers)]
    exact onTable

/-- A call of a declared procedure, whose arguments have been lowered and have the given types.  As in
every program, no type variable hides behind the name of a distinct type. -/
structure Calls (context : BodyContext) (state : BodyState) (callee : String) (signature : Signature)
    (spelled : List Surface.Expr) (args : List Expr) (types : List TypeId) (middle : BodyState) : Prop where
  sound : state.Sound
  known : context.Known state.table
  declared : context.signatures.lookup callee = some signature
  lowers : lowerExprs context spelled state = .ok args middle
  typed : args.map Expr.type = types.map some
  distincts : middle.table.DistinctsClosed

variable {spelled : List Surface.Expr}

section Handles

/-- Makes a type `Handle` and a type variable `T`, sequences of both, and `var` sequences of both. -/
def handleCalls : List TableCall :=
  [.object "Handle" [] {}, .typevar "T", .wrap .seq 2, .wrap .seq 1, .wrap .var 4, .wrap .var 3]

/-- The types `Handle`, `T`, `seq[T]`, `seq[Handle]`, `var seq[Handle]` and `var seq[T]`, in this order. -/
def handleTable : TypeTable := TypeTable.after {} handleCalls

theorem handleTable_proper : handleTable.Proper := by
  have noBuiltIns : handleTable.builtIns = [] := by decide +kernel
  exact ⟨(Built.empty.after (by decide +kernel)).regular, by simp [noBuiltIns]⟩

theorem handleTable_has {id : TypeId} (member : id ∈ [1, 2, 3, 4, 5, 6]) : handleTable.Has id := by
  have all : ∀ id ∈ ([1, 2, 3, 4, 5, 6] : List TypeId), (handleTable.get? id).isSome = true := by decide +kernel
  exact all id member

/-- The procedure `first[T](items: seq[T]): T`. -/
def firstSignature : Signature := ⟨"first", [3], 2, [2], false, {}⟩

/-- The procedure `pick[T](all: var seq[T], more: seq[T]): T`. -/
def pickSignature : Signature := ⟨"pick", [6, 3], 2, [2], false, {}⟩

/-- Where both procedures are in scope. -/
def handleContext : BodyContext where
  file := none
  typeVars := []
  signatures := [("first", firstSignature), ("pick", pickSignature)]
  fuel := 0

/-- The locals `all: seq[Handle]` and `handles: var seq[Handle]`. -/
def handleState : BodyState where
  declarations := { table := handleTable }
  scopes := [[("all", ⟨1, 4⟩), ("handles", ⟨2, 5⟩)]]

/-- The variable `T` stands for `Handle`. -/
def handleForT (id : TypeId) : Option TypeTree := if id = 2 then some (.node (.named 1) []) else none

theorem handleState_sound : handleState.Sound := by
  refine ⟨⟨handleTable_proper, by simp [handleState], by simp [handleState]⟩, ?_, by simp [handleState]⟩
  have has : ∀ scope ∈ handleState.scopes, ∀ entry ∈ scope, entry.2.type ∈ ([1, 2, 3, 4, 5, 6] : List TypeId) := by
    decide +kernel
  exact fun scope isScope entry member => handleTable_has (has scope isScope entry member)

theorem handleContext_known : handleContext.Known handleTable := by
  refine ⟨by simp [handleContext, TypeVars.Known], fun entry member => ?_⟩
  have has : ∀ entry ∈ handleContext.signatures, ∀ id ∈ entry.2.params ++ entry.2.result :: entry.2.typeVars,
      id ∈ ([1, 2, 3, 4, 5, 6] : List TypeId) := by
    decide +kernel
  have known (id : TypeId) (isPart : id ∈ entry.2.params ++ entry.2.result :: entry.2.typeVars) : handleTable.Has id :=
    handleTable_has (has entry member id isPart)
  exact ⟨fun param isParam => known param (List.mem_append_left _ isParam), known _ (by simp),
    fun typeVar isVar => known typeVar (by simp [isVar])⟩

theorem handleTable_closed : handleTable.DistinctsClosed :=
  distinctsClosed_of_none (by decide +kernel)

/-- The argument `handles`, of type `var seq[Handle]`. -/
def handlesArg : Expr := .var (exprNoteAt handleContext ⟨1, 1⟩ 5) "handles" (some 2)

/-- The argument `all`, of type `seq[Handle]`. -/
def allArg : Expr := .var (exprNoteAt handleContext ⟨1, 1⟩ 4) "all" (some 1)

theorem calls_first : Calls handleContext handleState "first" firstSignature
    [.name ⟨1, 1⟩ "handles"] [handlesArg] [5] handleState :=
  ⟨handleState_sound, handleContext_known, rfl, rfl, rfl, handleTable_closed⟩

theorem calls_pick : Calls handleContext handleState "pick" pickSignature
    [.name ⟨1, 1⟩ "all", .name ⟨1, 1⟩ "handles"] [allArg, handlesArg] [4, 5] handleState :=
  ⟨handleState_sound, handleContext_known, rfl, rfl, rfl, handleTable_closed⟩

theorem handleForT_closed (id : TypeId) (tree : TypeTree) (assigned : handleForT id = some tree) : tree.IsClosed := by
  unfold handleForT at assigned
  split at assigned
  · obtain rfl := Option.some.inj assigned
    intro other
    rw [TypeTree.mentions_node (by simp)]
    simp
  · cases assigned

theorem handleForT_assigned (id : TypeId) : (handleForT id).isSome = true ↔ id ∈ ([2] : List TypeId) := by
  unfold handleForT
  split <;> simp_all

/-- The spellings of the types of the table. -/
theorem handleTable_trees :
    handleTable.tree 2 = .node (.typevar 2) [] ∧
      handleTable.tree 3 = .node (.wrap .seq) [.node (.typevar 2) []] ∧
      handleTable.tree 4 = .node (.wrap .seq) [.node (.named 1) []] ∧
      handleTable.tree 5 = .node (.wrap .var) [.node (.wrap .seq) [.node (.named 1) []]] ∧
      handleTable.tree 6 = .node (.wrap .var) [.node (.wrap .seq) [.node (.typevar 2) []]] := by
  refine ⟨?_, ?_, ?_, ?_, ?_⟩ <;> cbv

theorem explains_first : handleTable.Explains handleForT firstSignature [5] := by
  obtain ⟨-, seqT, -, varHandles, -⟩ := handleTable_trees
  refine ⟨handleForT_assigned, handleForT_closed, ?_, .cons ?_ .nil⟩
  · simp [firstSignature, seqT, TypeTree.mentions_node]
  · rw [seqT, varHandles]
    cbv

theorem explains_pick : handleTable.Explains handleForT pickSignature [4, 5] := by
  obtain ⟨-, seqT, handles, varHandles, varT⟩ := handleTable_trees
  refine ⟨handleForT_assigned, handleForT_closed, ?_, .cons ?_ (.cons ?_ .nil)⟩
  · simp [pickSignature, seqT, varT, TypeTree.mentions_node]
  · rw [varT, handles]
    cbv
  · rw [seqT, varHandles]
    cbv

theorem takesBare_pick : handleTable.TakesBare handleForT [6, 3] [4, 5] := by
  have noVariable : ∀ pair ∈ ([6, 3] : List TypeId).zip ([4, 5] : List TypeId),
      (handleTable.get? pair.1).map TypeDef.kind ≠ some .typevar := by
    decide +kernel
  intro pair member name isVariable
  have kind := noVariable pair member
  rw [isVariable] at kind
  exact absurd rfl kind

theorem finds_pick : handleTable.Finds [6, 3] [4, 5] 2 := by
  refine ⟨(6, 4), by simp, ?_, ?_⟩
  · rintro ⟨type, argType, -, isArg, -, mode, -⟩
    have noMode : (handleTable.get? 4).map TypeDef.isParamMode = some false := by decide +kernel
    rw [isArg] at noMode
    rw [Option.map_some, mode] at noMode
    cases noMode
  · rw [handleTable_trees.2.2.2.2]
    simp [TypeTree.mentions_node]

end Handles

/-- The type of a call mentions just those type variables of the result that occur in no parameter
whose argument is matched.  So it is the type that the assignment makes of the result just when each
type variable of the result occurs in a parameter whose argument is not passed over. -/
theorem call_finds_instance (place : Position) (calls : Calls context state callee signature spelled args types middle)
    (explains : middle.table.Explains assign signature types)
    (bare : middle.table.TakesBare assign signature.params types) :
    ∃ type later,
      lowerExpr context (.call place callee spelled) state =
          .ok (.call (exprNoteAt context place type) callee args) later ∧
        (∀ id, (later.table.tree type).Mentions id ↔ (middle.table.tree signature.result).Mentions id ∧
          ¬ middle.table.Finds signature.params types id) ∧
        (later.table.tree type = (middle.table.tree signature.result).substitute assign ↔
          ∀ id ∈ signature.typeVars, (middle.table.tree signature.result).Mentions id →
            middle.table.Finds signature.params types id) := by
  obtain ⟨⟨sound, extends_⟩, inside⟩ :=
    (lowerExprs_yields spelled state calls.sound calls.known).of_ok calls.lowers
  have has : ∀ type ∈ types, middle.table.Has type := by
    intro type member
    have isTyped : some type ∈ args.map Expr.type := calls.typed ▸ List.mem_map_of_mem member
    obtain ⟨arg, isArg, same⟩ := List.mem_map.mp isTyped
    exact inside.of_mem (mem_partsOf isArg) same
  obtain ⟨type, later, mapping, run, solves, -, substituted⟩ := typeCall_substitutes sound
    (calls.known.extends_ extends_) calls.distincts place calls.declared calls.typed has explains bare
  refine ⟨type, later, ?_, fun id => ?_, ?_⟩
  · rw [lowerExpr, bind_run_of_ok calls.lowers, bind_run_of_ok run]
    rfl
  · rw [substituted, solves.mentions_iff explains.closed]
    rfl
  · rw [substituted, solves.substitute_eq_iff explains.closed]
    simp only [explains.assigned]
    exact forall_congr' fun id => forall_comm

/-- The mode of the first parameter counts for nothing, and the second argument is passed over; still the
call gives a `Handle`. -/
theorem call_finds_instance_pick :
    ∃ type later,
      lowerExpr handleContext (.call ⟨1, 1⟩ "pick" [.name ⟨1, 1⟩ "all", .name ⟨1, 1⟩ "handles"]) handleState =
          .ok (.call (exprNoteAt handleContext ⟨1, 1⟩ type) "pick" [allArg, handlesArg]) later ∧
        later.table.tree type = .node (.named 1) [] := by
  obtain ⟨type, later, run, -, instantiates⟩ := call_finds_instance ⟨1, 1⟩ calls_pick explains_pick takesBare_pick
  refine ⟨type, later, run, (instantiates.mpr ?_).trans ?_⟩
  · intro id isVar _
    obtain rfl : id = 2 := by simpa [pickSignature] using isVar
    exact finds_pick
  · change (handleTable.tree 2).substitute handleForT = _
    rw [handleTable_trees.1]
    simp [TypeTree.substitute, handleForT]

/-- Whatever the modes of its arguments, a call has the type that the assignment makes of the result, up
to an outer mode. -/
def CallsReadValues : Prop :=
  ∀ {context : BodyContext} {state middle : BodyState} {callee : String} {signature : Signature}
    {spelled : List Surface.Expr} {args : List Expr} {types : List TypeId} {assign : TypeId → Option TypeTree}
    (place : Position), Calls context state callee signature spelled args types middle →
    middle.table.Explains assign signature types →
    (∀ id ∈ signature.typeVars, ∃ param ∈ signature.params, (middle.table.tree param).Mentions id) →
    ∃ type later,
      lowerExpr context (.call place callee spelled) state =
          .ok (.call (exprNoteAt context place type) callee args) later ∧
        (later.table.tree type).value = ((middle.table.tree signature.result).substitute assign).value

theorem not_callsReadValues : ¬ CallsReadValues := by
  intro claimed
  obtain ⟨isT, seqT, -⟩ := handleTable_trees
  have occurs : ∀ id ∈ ([2] : List TypeId), ∃ param ∈ ([3] : List TypeId), (handleTable.tree param).Mentions id := by
    simp [seqT, TypeTree.mentions_node]
  obtain ⟨type, later, run, same⟩ := claimed ⟨1, 1⟩ calls_first explains_first occurs
  -- The argument is passed over, so that the call has the type variable itself for its type.
  have leaves : ((lowerExpr handleContext (.call ⟨1, 1⟩ "first" [.name ⟨1, 1⟩ "handles"])).result? handleState).bind
      Expr.type = some 2 := by
    decide +kernel
  rw [Attempt.result?, run] at leaves
  obtain rfl : type = 2 := Option.some.inj leaves
  have extends_ := ((lowerExpr_yields _ handleState handleState_sound handleContext_known).of_ok run).1.2
  rw [handleTable_proper.toWellFormed.tree_extends extends_ (handleTable_has (by simp)), isT] at same
  change _ = ((handleTable.tree 2).substitute handleForT).value at same
  rw [isT, TypeTree.substitute] at same
  simp [handleForT, TypeTree.value] at same

end BodyM
end LifecycleHooks

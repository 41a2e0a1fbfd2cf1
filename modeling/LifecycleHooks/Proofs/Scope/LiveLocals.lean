import LifecycleHooks.Proofs.Program.Naming
import LifecycleHooks.Proofs.Scope.ExitSafety
import LifecycleHooks.Proofs.Scope.Exits

/-!
# Live locals and lexical scope

Lowering and the scope graph each keep track of the declarations in scope.  For a lowered procedure
they agree: on an exit edge the live locals of a scope are those that are declared in its block
before the exit, and a `return` hands over the local that its name stands for.
-/

namespace LifecycleHooks

/-- Whether a statement is a declaration. -/
def Stmt.isDeclaration : Stmt → Bool
  | .declare .. => true
  | _ => false

/-- A statement declares a local under the binding that the statement has, with the type of that
binding. -/
def Stmt.DeclaresBound (types : BindingTypes) (declared : Local) : Stmt → Prop
  | .declare note name _ _ _ binding =>
      declared.name = name ∧ declared.declaration = note.id ∧ declared.span = note.span ∧
        binding = some declared.binding ∧ types.lookup declared.binding = some declared.type
  | _ => False

/-- Locals are those of all declarations among statements, in the order written. -/
def AreDeclaredIn (types : BindingTypes) (statements : List Stmt) (locals : List Local) : Prop :=
  List.Forall₂ (fun statement declared => statement.DeclaresBound types declared)
    (statements.filter Stmt.isDeclaration) locals

section Declared

variable {types : BindingTypes} {given : BindingId → Prop} {known : List (Place × ScopeId)}

theorem Stmt.introduced?_of_declaresBound {statement : Stmt} {declared : Local}
    (declares : statement.DeclaresBound types declared) :
    statement.introduced? = some (declared.name, declared.binding) := by
  cases statement with
  | declare note name value type mutability binding =>
      obtain ⟨rfl, -, -, rfl, -⟩ := declares
      rfl
  | _ => cases declares

/-- A declaration whose binding has a type declares a local. -/
theorem Stmt.isTyped_eq {statement : Stmt}
    (typed : statement.DeclaresGiven fun id => (types.lookup id).isSome = true) :
    statement.isTyped types = statement.isDeclaration := by
  cases statement with
  | declare note name value type mutability binding =>
      obtain ⟨id, rfl, hasType⟩ := typed
      obtain ⟨found, isFound⟩ := Option.isSome_iff_exists.mp hasType
      simp [Stmt.isTyped, Stmt.isDeclaration, Walk.localType, isFound]
  | _ => rfl

theorem Stmt.Declares.bound {statement : Stmt} {declared : Local} (declares : statement.Declares types declared)
    (typed : statement.DeclaresGiven fun id => (types.lookup id).isSome = true) :
    statement.DeclaresBound types declared := by
  cases statement with
  | declare note name value type mutability binding =>
      obtain ⟨id, rfl, hasType⟩ := typed
      obtain ⟨found, isFound⟩ := Option.isSome_iff_exists.mp hasType
      obtain ⟨isNamed, isHere, isAt, isTyped, isBound⟩ := declares
      obtain rfl := isBound id rfl
      refine ⟨isNamed, isHere, isAt, rfl, ?_⟩
      rw [← isTyped]
      simp [Walk.localType, isFound]
  | _ => cases declares

/-- Where every binding has a type, all declarations declare a local. -/
theorem DeclareAll.areDeclaredIn {statements : List Stmt} {locals : List Local}
    (declares : DeclareAll types statements locals)
    (typed : ∀ statement ∈ statements, statement.DeclaresGiven fun id => (types.lookup id).isSome = true) :
    AreDeclaredIn types statements locals := by
  unfold DeclareAll at declares
  rw [List.filter_congr fun statement member => Stmt.isTyped_eq (typed statement member)] at declares
  have inside : ∀ statement ∈ statements.filter Stmt.isDeclaration, statement.DeclaresGiven _ :=
    fun statement member => typed statement (List.mem_of_mem_filter member)
  refine ((List.forall₂_and_left _ _).mpr ⟨inside, declares⟩).imp fun statement declared both => ?_
  exact both.2.bound both.1

/-- Statements introduce the names of the locals that are declared in them. -/
theorem AreDeclaredIn.introducedBy_eq {statements : List Stmt} {locals : List Local}
    (declared : AreDeclaredIn types statements locals) :
    introducedBy statements = (locals.map fun declared => (declared.name, declared.binding)).reverse := by
  unfold introducedBy
  congr 1
  induction statements generalizing locals with
  | nil =>
      cases declared
      rfl
  | cons statement statements ih =>
      unfold AreDeclaredIn at declared
      cases isDeclaration : statement.isDeclaration with
      | true =>
          rw [List.filter_cons_of_pos isDeclaration] at declared
          cases declared with
          | cons here rest =>
              rw [List.filterMap_cons_some (Stmt.introduced?_of_declaresBound here), List.map_cons, ih rest]
      | false =>
          rw [List.filter_cons_of_neg (by simp [isDeclaration])] at declared
          have none : statement.introduced? = none := by
            cases statement with
            | declare => cases isDeclaration
            | _ => rfl
          rw [List.filterMap_cons_none none, ih declared]

/-- Frames that stand for the blocks around a place bind the names that these introduce before the
place. -/
theorem Mirrors.frameNames_eq {around : List Enclosing} {frames : List Frame}
    (locals : List.Forall₂ (fun enclosing frame => AreDeclaredIn types enclosing.before frame.locals)
      around frames) : frameNames frames = namesAround around := by
  induction locals with
  | nil => rfl
  | cons here rest ih =>
      simp only [frameNames, namesAround, List.flatMap_cons] at ih ⊢
      rw [here.introducedBy_eq, ih]

end Declared

/-- An exit returns a name by the binding that the name stands for, and all that is declared before
the exit has a binding of the given kind. -/
structure Exit.IsLexical (given : BindingId → Prop) (outside : Names) (exit : Exit) : Prop where
  value : ReturnsVisible (namesAround exit.around ++ outside) exit.value
  before : DeclaredGiven given exit.around

theorem Place.IsLexical.exit {given : BindingId → Prop} {outside : Names} {place : Place} {exit : Exit}
    (lexical : place.IsLexical given outside) (leaves : place.exit? = some exit) :
    exit.IsLexical given outside := by
  obtain ⟨-, way⟩ : place.isReachable = true ∧ place.way? = some exit := by
    simpa [Place.exit?] using leaves
  have front := lexical.front
  have before := lexical.before
  unfold Place.way? at way
  split at way
  · obtain rfl := Option.some.inj way
    exact ⟨trivial, before⟩
  · rename_i isReturn
    obtain rfl := Option.some.inj way
    exact ⟨front _ isReturn, before⟩
  · obtain rfl := Option.some.inj way
    exact ⟨trivial, before⟩
  · obtain rfl := Option.some.inj way
    exact ⟨trivial, before⟩
  · cases way

/-- The exits of a lowered procedure return names by their bindings. -/
theorem Procedure.IsNamed.exits {procedure : Procedure} {types : BindingTypes}
    (named : procedure.IsNamed types) : ∀ exit ∈ procedure.exits, exit.IsLexical
      (fun id => procedure.IsLocal id ∧ (types.lookup id).isSome = true) procedure.outerNames := by
  intro exit member
  obtain ⟨place, inside, leaves⟩ := List.mem_filterMap.mp member
  exact Place.IsLexical.exit (Block.IsLexical.places (by simp [DeclaredGiven]) .body named.lexical place inside)
    leaves

/-- The local that an exit hands over: that which it returns, if it is declared in a block around. -/
def Exit.handedOver? (exit : Exit) : Option BindingId :=
  (returned? exit.value).filter fun id => id ∈ (namesAround exit.around).map Prod.snd

/-- A `return` hands over the local whose binding it names, if a frame has that, and nothing else. -/
theorem consumedBy_eq {outside visible : Names} {frames : List Frame} {value : Option Expr}
    (names : visible = frameNames frames ++ outside) (named : ReturnsVisible visible value) :
    Walk.consumedBy frames value =
      ((returned? value).filter fun id => id ∈ (frameNames frames).map Prod.snd).toList := by
  obtain ⟨handed, same⟩ : ∃ handed : Option BindingId, Walk.consumedBy frames value = handed.toList := by
    unfold Walk.consumedBy
    split
    · exact ⟨_, (Option.toList_map ..).symm⟩
    · exact ⟨none, rfl⟩
  have consumes := mem_consumedBy names named
  rw [same] at consumes ⊢
  congr 1
  ext id
  simpa [Option.mem_toList, Option.filter_eq_some_iff] using consumes id

namespace ScopeGraph

/-- An edge agrees with the lexical scope of its exit: its scopes are those of the blocks that the
exit leaves, in each of them just the declarations before the exit are live, and the local that it
hands over is what the returned name stands for, unless that is a parameter or the implicit result. -/
structure AgreesWith (graph : ScopeGraph) (procedure : Procedure) (types : BindingTypes) (exit : Exit)
    (edge : ExitEdge) : Prop where
  edgeOf : graph.EdgeOf procedure.scopes exit edge
  live : List.Forall₂ (fun enclosing id => ∃ locals, graph.liveLocals edge id = .ok locals.reverse ∧
    AreDeclaredIn types enclosing.before locals) (exit.around.take exit.depth) edge.unwound
  returned : ReturnsVisible (namesAround exit.around ++ procedure.outerNames) exit.value
  consumed : edge.consumed = exit.handedOver?.toList
  isLocal : ∀ id, returned? exit.value = some id →
    (id ∈ (namesAround exit.around).map Prod.snd ↔ procedure.IsLocal id)

variable {graph : ScopeGraph} {types : BindingTypes} {known : List (Place × ScopeId)}

/-- The frames around an exit bind just what is declared before it. -/
theorem LeavesFrames.areDeclaredIn {frames : List Frame} {exit : Exit} {edge : ExitEdge}
    (leaves : graph.LeavesFrames types known frames exit edge)
    (typed : DeclaredGiven (fun id => (types.lookup id).isSome = true) exit.around) :
    List.Forall₂ (fun enclosing frame => AreDeclaredIn types enclosing.before frame.locals)
      exit.around frames := by
  refine ((List.forall₂_and_left _ _).mpr ⟨typed, leaves.locals⟩).imp fun enclosing frame both => ?_
  exact both.2.areDeclaredIn both.1

/-- The live locals of the scopes that an edge unwinds are those of the frames. -/
theorem LeavesFrames.liveLocals {frames : List Frame} {exit : Exit} {edge : ExitEdge}
    (leaves : graph.LeavesFrames types known frames exit edge) :
    ∀ frame ∈ frames.take exit.depth, graph.liveLocals edge frame.scope = .ok frame.locals.reverse :=
  fun _ member => liveLocals_of_covers leaves.live
    (leaves.distinct.sublist ((List.take_sublist _ _).map _))
    (fun frame inside => leaves.covers frame (List.mem_of_mem_take inside)) member

/-- An edge that leaves the frames around an exit agrees with the lexical scope of the exit. -/
theorem LeavesFrames.agreesWith {procedure : Procedure} {frames : List Frame} {exit : Exit} {edge : ExitEdge}
    (leaves : graph.LeavesFrames types procedure.scopes frames exit edge)
    (lexical : exit.IsLexical (fun id => procedure.IsLocal id ∧ (types.lookup id).isSome = true)
      procedure.outerNames) : graph.AgreesWith procedure types exit edge := by
  have declared := leaves.areDeclaredIn (lexical.before.mono fun id isGiven => isGiven.2)
  have names : frameNames frames = namesAround exit.around := Mirrors.frameNames_eq declared
  have returned := lexical.value
  refine ⟨leaves.edgeOf, ?_, returned, ?_, fun id isReturned => ⟨fun inside => ?_, fun isLocal => ?_⟩⟩
  · rw [leaves.unwound, List.forall₂_map_right_iff]
    have unwound := (List.forall₂_take exit.depth declared).flip
    refine ((List.forall₂_and_left _ _).mpr ⟨leaves.liveLocals, unwound⟩).flip.imp fun enclosing frame both => ?_
    exact ⟨frame.locals, both⟩
  · rw [leaves.consumed, consumedBy_eq (congrArg (· ++ procedure.outerNames) names.symm) returned, names]
    rfl
  · exact (lexical.before.of_mem inside).1
  · have visible := returned_visible returned isReturned
    rw [List.map_append, List.mem_append] at visible
    refine visible.resolve_right fun outside => ?_
    obtain ⟨⟨name, _⟩, inside, rfl⟩ := List.mem_map.mp outside
    exact procedure.outerNames_not_local inside isLocal

end ScopeGraph

/-- The scope graph of a lowered procedure agrees with lexical scope: its edges agree, one by one, with
the exits that control can come to. -/
theorem Procedure.scopeGraph_agrees {procedure : Procedure} {types : BindingTypes}
    (lowered : procedure.IsLowered types) :
    ∃ graph, procedure.scopeGraph types = .ok graph ∧
      List.Forall₂ (graph.AgreesWith procedure types) procedure.exits graph.edges := by
  have lexical := lowered.isNamed.exits
  obtain ⟨context, proc, signature, declarations, state, run, rfl⟩ := lowered
  obtain ⟨⟨first, names, bound⟩, -⟩ := BodyM.lowerProcedure_boundFrom context run
  obtain ⟨walk, walks⟩ := bound.binds.walks ⟨procedure.name, state.bindingTypes⟩
    (show Fragment.StandsIn false [] (.block false procedure.body) from fun inLoop => by cases inLoop)
    {}
  refine ⟨walk.graph procedure.name, walks.scopeGraph, ?_⟩
  refine ((List.forall₂_and_left _ _).mpr ⟨lexical, walks.follows_procedure.edges⟩).imp ?_
  rintro exit edge ⟨isLexical, frames, leaves⟩
  exact leaves.agreesWith isLexical

theorem Procedure.scopeGraph_agrees_handles :
    handlesProcedure.IsLowered handlesLowered.bindingTypes ∧
      handlesProcedure.scopeGraph handlesLowered.bindingTypes = .ok handlesGraph ∧
      List.Forall₂ (handlesGraph.AgreesWith handlesProcedure handlesLowered.bindingTypes)
        handlesProcedure.exits handlesGraph.edges ∧
      handlesProcedure.exits.map Exit.handedOver? = [none, none, some 3] := by
  have run : lowerHandles { declarations := handleDeclarations } =
      .ok handlesProcedure handlesLowered := rfl
  have lowered : handlesProcedure.IsLowered handlesLowered.bindingTypes := ⟨_, _, _, _, _, run, rfl⟩
  obtain ⟨graph, isGraph, agrees⟩ := Procedure.scopeGraph_agrees lowered
  have same : handlesGraph = graph := by
    unfold handlesGraph
    rw [isGraph]
    rfl
  subst same
  exact ⟨lowered, isGraph, agrees, by decide +kernel⟩

end LifecycleHooks

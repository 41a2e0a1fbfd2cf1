import LifecycleHooks.Proofs.Procedure.Places
import LifecycleHooks.Proofs.Scope.LocalSafety

/-!
# Walks follow places

A walk over a body finds a scope for each block that control can enter and an edge for each
way out that control can come to, both in the order written.  This holds of every body,
whatever its nodes are numbered and whether its names are bound or not.
-/

namespace LifecycleHooks

/-- The places in front of and inside a fragment.  A block stands in what is around it in the
given role. -/
def Fragment.places (role : BlockRole) : Fragment → (around : List Enclosing) → List Place
  | .block _ inner, around => inner.places around role
  | .statement inner, own :: outer => ⟨own, outer, .front inner⟩ :: inner.places (own :: outer)
  | .sequence statements, own :: outer => placesIn own outer statements
  | .statement _, [] | .sequence _, [] => []

theorem Fragment.sequence_places (role : BlockRole) (statement : Stmt) (statements : List Stmt)
    (own : Enclosing) (outer : List Enclosing) :
    (Fragment.sequence (statement :: statements)).places role (own :: outer) =
      (Fragment.statement statement).places role (own :: outer) ++
        (Fragment.sequence statements).places role
          ({ own with before := own.before ++ [statement] } :: outer) :=
  rfl

/-- A block that is a fragment can stand in what is around it in the given role. -/
def Fragment.HasRole (role : BlockRole) : Fragment → Prop
  | .block isLoopBody _ => isLoopBody = role.isLoopBody
  | .statement _ | .sequence _ => True

/-- Whether control can come to the end of a fragment. -/
def Fragment.completes : Fragment → Bool
  | .block _ inner => inner.completes
  | .statement inner => inner.completes
  | .sequence statements => allComplete statements

/-- A walk goes on behind a fragment when control can come to its end. -/
theorem Walks.continues_eq {context : WalkContext} {frames : List Frame} {next : NextIds}
    {fragment : Fragment} {walk : Walk} (walks : Walks context frames next fragment walk) :
    walk.continues = fragment.completes := by
  induction walks with
  | declare => exact Walk.ofDeclaration_continues ..
  | assign => rfl
  | expr => rfl
  | spawn => rfl
  | «return» => rfl
  | «break» => rfl
  | «continue» => rfl
  | block inside ih => exact ih
  | branch => rfl
  | branchElse note condition ifYes ifNo yesIH noIH => exact congrArg₂ or yesIH noIH
  | loop => rfl
  | blockEnd note inside continues ih => exact continues.symm.trans ih
  | blockExit note inside ends ih => exact ends.symm.trans ih
  | nil => rfl
  | next before continues behind beforeIH behindIH =>
      have first : Stmt.completes _ = true := beforeIH.symm.trans continues
      simp only [Fragment.completes, allComplete, first, Bool.true_and]
      exact behindIH
  | stop statements before ends ih =>
      have first : Stmt.completes _ = false := ih.symm.trans ends
      simp only [Fragment.completes, allComplete, first, Bool.false_and]
      exact ends

/-- Whether a statement declares a local: a declaration without a type declares none. -/
def Stmt.isTyped (types : BindingTypes) : Stmt → Bool
  | .declare _ _ _ type _ binding => (Walk.localType types type binding).isSome
  | _ => false

/-- A statement declares a local, under the binding that it has, if it has one. -/
def Stmt.Declares (types : BindingTypes) (declared : Local) : Stmt → Prop
  | .declare note name _ type _ binding =>
      declared.name = name ∧ declared.declaration = note.id ∧ declared.span = note.span ∧
        Walk.localType types type binding = some declared.type ∧
        ∀ id, binding = some id → declared.binding = id
  | _ => False

/-- Locals are those that statements declare, in order. -/
def DeclareAll (types : BindingTypes) (statements : List Stmt) (locals : List Local) : Prop :=
  List.Forall₂ (fun statement declared => statement.Declares types declared)
    (statements.filter (Stmt.isTyped types)) locals

theorem DeclareAll.append {types : BindingTypes} {first second : List Stmt} {locals more : List Local}
    (before : DeclareAll types first locals) (behind : DeclareAll types second more) :
    DeclareAll types (first ++ second) (locals ++ more) := by
  unfold DeclareAll
  rw [List.filter_append]
  exact List.rel_append before behind

/-- The walk over a statement finds the local that it declares. -/
theorem Walks.declares {context : WalkContext} {frames : List Frame} {next : NextIds}
    {statement : Stmt} {walk : Walk} (walks : Walks context frames next (.statement statement) walk) :
    DeclareAll context.bindingTypes [statement] walk.locals := by
  cases walks with
  | declare scope outer next note name value type mutability binding =>
      unfold DeclareAll Walk.ofDeclaration
      cases typed : Walk.localType context.bindingTypes type binding with
      | none => simp [Stmt.isTyped, typed]
      | some found => cases binding <;> simp [Stmt.isTyped, Stmt.Declares, typed]
  | block inside => exact inside.block_locals ▸ .nil
  | branch note condition inside => exact inside.block_locals ▸ .nil
  | loop note condition inside => exact inside.block_locals ▸ .nil
  | _ => exact .nil

/-- Where a walk goes on behind statements it has found the locals of all of them. -/
theorem Walks.declaresAll {context : WalkContext} {frames : List Frame} {next : NextIds}
    {statements : List Stmt} {walk : Walk} (walks : Walks context frames next (.sequence statements) walk)
    (continues : walk.continues = true) : DeclareAll context.bindingTypes statements walk.locals := by
  induction statements generalizing frames next walk with
  | nil =>
      cases walks
      exact .nil
  | cons statement statements ih =>
      cases walks with
      | next before goesOn behind => exact before.declares.append (ih behind continues)
      | stop _ before ends => cases ends.symm.trans continues

theorem numberFrom_append (first : ScopeId) (before behind : List Place) :
    numberFrom first (before ++ behind) =
      numberFrom first before ++ numberFrom (first + before.length) behind := by
  induction before generalizing first with
  | nil => simp [numberFrom]
  | cons place before ih => simp [numberFrom, ih, Int.add_assoc, Int.add_comm 1]

/-- The blocks that control can enter at places have known numbers, from the first one on. -/
def AreNumbered (known : List (Place × ScopeId)) (first : ScopeId) (places : List Place) : Prop :=
  ∀ entry ∈ numberFrom first (places.filter Place.isEntered), entry ∈ known

section Numbered

variable {known : List (Place × ScopeId)} {first after : ScopeId} {before behind places : List Place}

theorem areNumbered_append : AreNumbered known first (before ++ behind) ↔
    AreNumbered known first before ∧
      AreNumbered known (first + (before.filter Place.isEntered).length) behind := by
  simp only [AreNumbered, List.filter_append, numberFrom_append, List.mem_append, or_imp, forall_and]

theorem areNumbered_skip {place : Place} (entry : place.isEntered = false) :
    AreNumbered known first (place :: places) ↔ AreNumbered known first places := by
  rw [AreNumbered, List.filter_cons_of_neg (by simp [entry]), AreNumbered]

end Numbered

/-- Scopes are those of the blocks around a place. -/
def AreScopesOf (known : List (Place × ScopeId)) (around : List Enclosing) (ids : List ScopeId) : Prop :=
  List.Forall₂ (fun entry id => (entry, id) ∈ known) (entriesOf around) ids

/-- Frames stand for the blocks around a place: they have the scopes of these blocks, and the
locals that are declared in them before the place. -/
structure Mirrors (types : BindingTypes) (known : List (Place × ScopeId)) (around : List Enclosing)
    (frames : List Frame) : Prop where
  scopes : AreScopesOf known around (frames.map Frame.scope)
  loops : frames.map Frame.isLoopBody = around.map fun enclosing => enclosing.role.isLoopBody
  locals : List.Forall₂ (fun enclosing frame => DeclareAll types enclosing.before frame.locals)
    around frames

namespace Mirrors

variable {types : BindingTypes} {known : List (Place × ScopeId)} {around outer : List Enclosing}
  {frames : List Frame}

theorem length_eq (mirrors : Mirrors types known around frames) : around.length = frames.length :=
  mirrors.locals.length_eq

/-- A block that is entered has a frame that has declared nothing yet. -/
theorem enter (mirrors : Mirrors types known outer frames) {role : BlockRole} {block : Block} {id : ScopeId}
    (entry : (⟨⟨role, block, []⟩, outer, .opening⟩, id) ∈ known) :
    Mirrors types known (⟨role, block, []⟩ :: outer) (⟨id, role.isLoopBody, []⟩ :: frames) where
  scopes := .cons entry mirrors.scopes
  loops := by simp [mirrors.loops]
  locals := .cons .nil mirrors.locals

/-- Behind statements their locals are declared too. -/
theorem behind {own : Enclosing} {scope : Frame} {passed : List Stmt} {more : List Local}
    (mirrors : Mirrors types known (own :: outer) (scope :: frames))
    (declares : DeclareAll types passed more) :
    Mirrors types known ({ own with before := own.before ++ passed } :: outer)
      ({ scope with locals := scope.locals ++ more } :: frames) where
  scopes := mirrors.scopes
  loops := mirrors.loops
  locals := by
    cases mirrors.locals with
    | cons here rest => exact .cons (here.append declares) rest

/-- The innermost loop body among frames is that among the blocks they stand for. -/
theorem findIdx_eq (mirrors : Mirrors types known around frames) :
    frames.findIdx Frame.isLoopBody = around.findIdx fun enclosing => enclosing.role.isLoopBody := by
  have same := congrArg (List.findIdx id) mirrors.loops
  simpa [List.findIdx_map, Function.comp_def] using same

end Mirrors

/-- The frames that are unwound up to the innermost loop body, counted. -/
theorem untilLoop?_eq_take {frames unwound : List Frame} (found : Walk.untilLoop? frames = some unwound) :
    unwound = frames.take (frames.findIdx Frame.isLoopBody + 1) := by
  induction frames generalizing unwound with
  | nil => cases found
  | cons frame outer ih =>
      unfold Walk.untilLoop? at found
      split at found
      · rename_i isLoopBody
        obtain rfl := Option.some.inj found
        simp [List.findIdx_cons, isLoopBody]
      · rename_i isNoLoopBody
        obtain ⟨inner, foundInner, rfl⟩ := Option.map_eq_some_iff.mp found
        rw [ih foundInner]
        simp [List.findIdx_cons, isNoLoopBody]

namespace ScopeGraph

variable (graph : ScopeGraph) (types : BindingTypes) (known : List (Place × ScopeId))

/-- A scope is that of a block that control can enter. -/
structure Opens (entry : Place × ScopeId) (scope : Scope) : Prop where
  id : scope.id = entry.2
  block : scope.block = entry.1.own.block.note.id
  isLoopBody : scope.isLoopBody = entry.1.own.role.isLoopBody
  fallsThrough : scope.fallsThrough = entry.1.closing.isReachable
  chain : ∃ ids, graph.chain scope.id = .ok ids ∧ AreScopesOf known entry.1.around ids

/-- An edge leaves the frames that stand for the blocks around an exit. -/
structure LeavesFrames (frames : List Frame) (exit : Exit) (edge : ExitEdge) : Prop extends
    Mirrors types known exit.around frames where
  covers : graph.Covers frames
  chains : graph.Chains (frames.map Frame.scope)
  distinct : (frames.map Frame.scope).Nodup
  kind : edge.kind = exit.kind
  anchor : edge.anchor = exit.note.id
  span : edge.span = exit.note.span
  origin : (frames.map Frame.scope).head? = some edge.origin
  unwound : edge.unwound = (frames.take exit.depth).map Frame.scope
  live : edge.live = (frames.take exit.depth).map fun frame => (frame.scope, (frame.locals.length : Int))
  consumed : edge.consumed = Walk.consumedBy frames exit.value

/-- Frames are those in which code at a place is walked over, where control can come to the
place. -/
structure StandsAt (around : List Enclosing) (frames : List Frame) (next : NextIds) : Prop extends
    Mirrors types known around frames where
  passes : allPass around = true
  encloses : graph.Encloses next.scope (frames.map Frame.scope)

/-- A walk over places finds a scope for each block that control can enter and an edge for each
exit that it can come to, in the order of the places. -/
structure Follows (places : List Place) (next : NextIds) (walk : Walk) : Prop where
  count : walk.next.scope = next.scope + ((places.filter Place.isEntered).length : Int)
  scopes : List.Forall₂ (graph.Opens known) (numberFrom next.scope (places.filter Place.isEntered))
    walk.scopes
  edges : List.Forall₂ (fun exit edge => ∃ frames, graph.LeavesFrames types known frames exit edge)
    (places.filterMap Place.exit?) walk.edges

variable {graph types known}

/-- The chain of scopes around the innermost of them. -/
theorem Chains.chain_eq {id : ScopeId} {outer : List ScopeId} (chains : graph.Chains (id :: outer))
    (distinct : (id :: outer).Nodup) : graph.chain id = .ok (id :: outer) := by
  have length := chains.length_le distinct
  exact chainWithin_of_chains chains (by simp at length; omega)

end ScopeGraph

/-- The places of a block are its entry, those inside, and its end. -/
theorem Block.filter_places {outer : List Enclosing} (passes : allPass outer = true) (role : BlockRole)
    (note : Note) (statements : List Stmt) :
    ((Block.mk note statements).places outer role).filter Place.isEntered =
      ⟨⟨role, .mk note statements, []⟩, outer, .opening⟩ ::
        (placesIn ⟨role, .mk note statements, []⟩ outer statements).filter Place.isEntered := by
  have entered : Place.isReachable ⟨⟨role, .mk note statements, []⟩, outer, .opening⟩ = true := by
    simp [Place.isReachable, Place.around, allPass_cons, allComplete, passes]
  simp [Block.places, Place.isEntered, entered]

theorem Block.filterMap_places {outer : List Enclosing} (passes : allPass outer = true) (role : BlockRole)
    (note : Note) (statements : List Stmt) :
    ((Block.mk note statements).places outer role).filterMap Place.exit? =
      (placesIn ⟨role, .mk note statements, []⟩ outer statements).filterMap Place.exit? ++
        if allComplete statements then
          [{ kind := .fallthrough, note := note, around := ⟨role, .mk note statements, statements⟩ :: outer }]
        else [] := by
  cases complete : allComplete statements <;>
    simp [Block.places, Place.exit?, Place.way?, Place.isReachable, Place.around,
      allPass_cons, passes, complete, Block.note]

namespace ScopeGraph

variable {graph : ScopeGraph} {types : BindingTypes} {known : List (Place × ScopeId)}
  {around : List Enclosing} {frames : List Frame} {next : NextIds} {walk : Walk} {places : List Place}

namespace Follows

/-- Nothing is found where control neither enters nor leaves a block. -/
theorem nothing (unchanged : walk.next.scope = next.scope) (scopes : walk.scopes = []) (edges : walk.edges = [])
    (entries : places.filter Place.isEntered = []) (exits : places.filterMap Place.exit? = []) :
    graph.Follows types known places next walk where
  count := by simp [unchanged, entries]
  scopes := by
    rw [entries, scopes]
    exact .nil
  edges := by
    rw [exits, edges]
    exact .nil

/-- Whether control goes on does not matter. -/
theorem goesOn (follows : graph.Follows types known places next walk) :
    graph.Follows types known places next { walk with continues := true } :=
  ⟨follows.count, follows.scopes, follows.edges⟩

/-- What control cannot come to does not count. -/
theorem ignore {behind : List Place} (follows : graph.Follows types known places next walk)
    (blocked : ∀ place ∈ behind, place.isReachable = false) :
    graph.Follows types known (places ++ behind) next walk where
  count := by
    rw [List.filter_append, filter_isEntered_blocked blocked, List.append_nil]
    exact follows.count
  scopes := by
    rw [List.filter_append, filter_isEntered_blocked blocked, List.append_nil]
    exact follows.scopes
  edges := by
    rw [List.filterMap_append, filterMap_exit?_blocked blocked, List.append_nil]
    exact follows.edges

theorem append {first rest : Walk} {continues : Bool} {locals : List Local} {before behind : List Place}
    (early : graph.Follows types known before next first)
    (late : graph.Follows types known behind first.next rest) :
    graph.Follows types known (before ++ behind) next
      { continues := continues
        locals := locals
        scopes := first.scopes ++ rest.scopes
        edges := first.edges ++ rest.edges
        next := rest.next } where
  count := by
    rw [late.count, early.count, List.filter_append, List.length_append, Int.natCast_add, Int.add_assoc]
  scopes := by
    have onwards := late.scopes
    rw [early.count] at onwards
    rw [List.filter_append, numberFrom_append]
    exact List.rel_append early.scopes onwards
  edges := by
    rw [List.filterMap_append]
    exact List.rel_append early.edges late.edges

/-- Places at which control neither enters nor leaves a block do not count. -/
theorem skip {place : Place} (entry : place.isEntered = false) (way : place.way? = none)
    (follows : graph.Follows types known places next walk) :
    graph.Follows types known (place :: places) next walk := by
  have exit : place.exit? = none := by simp [Place.exit?, way]
  refine ⟨?_, ?_, ?_⟩
  · rw [List.filter_cons_of_neg (by simp [entry])]
    exact follows.count
  · rw [List.filter_cons_of_neg (by simp [entry])]
    exact follows.scopes
  · rw [List.filterMap_cons_none exit]
    exact follows.edges

/-- A block that control enters has a scope of its own, and an edge if control can come to its end. -/
theorem enclose {role : BlockRole} {note : Note} {statements : List Stmt} {inner : Walk} {scope : Scope}
    {ending : List ExitEdge} (passes : allPass around = true)
    (inside : graph.Follows types known (placesIn ⟨role, .mk note statements, []⟩ around statements)
      { next with scope := next.scope + 1 } inner)
    (opens : graph.Opens known (⟨⟨role, .mk note statements, []⟩, around, .opening⟩, next.scope) scope)
    (ends : List.Forall₂ (fun exit edge => ∃ frames, graph.LeavesFrames types known frames exit edge)
      (if allComplete statements then
        [{ kind := .fallthrough, note := note, around := ⟨role, .mk note statements, statements⟩ :: around }]
      else []) ending)
    (count : walk.next.scope = inner.next.scope) (scopes : walk.scopes = scope :: inner.scopes)
    (edges : walk.edges = inner.edges ++ ending) :
    graph.Follows types known ((Block.mk note statements).places around role) next walk where
  count := by
    have counted : inner.next.scope = next.scope + 1 + _ := inside.count
    rw [count, Block.filter_places passes, counted]
    simp [Int.add_assoc, Int.add_comm 1]
  scopes := by
    rw [Block.filter_places passes, scopes]
    exact .cons opens inside.scopes
  edges := by
    rw [Block.filterMap_places passes, edges]
    exact List.rel_append inside.edges ends

end Follows

namespace StandsAt

variable {scope : Frame} {outer : List Frame}

/-- The edge of an exit leaves the frames around it. -/
theorem leaves (exit : Exit) (stands : graph.StandsAt types known exit.around (scope :: outer) next)
    (covers : graph.Covers (scope :: outer)) {unwound : List Frame}
    (counted : unwound = (scope :: outer).take exit.depth) (edges : NextIds) :
    graph.LeavesFrames types known (scope :: outer) exit
      (Walk.leave edges exit.kind scope.scope unwound (Walk.consumedBy (scope :: outer) exit.value)
        exit.note).1 := by
  subst counted
  exact { stands.toMirrors with
    covers := covers, chains := stands.encloses.chain, distinct := stands.encloses.distinct
    kind := rfl, anchor := rfl, span := rfl, origin := rfl, unwound := rfl, live := rfl, consumed := rfl }

/-- A statement that leaves blocks has an edge of its own. -/
theorem follows (place : Place) {exit : Exit}
    (stands : graph.StandsAt types known place.around (scope :: outer) next)
    (covers : graph.Covers (scope :: outer)) (entry : place.isEntered = false)
    (way : place.way? = some exit) (same : exit.around = place.around) {unwound : List Frame}
    (counted : unwound = (scope :: outer).take exit.depth) :
    graph.Follows types known [place] next
      (Walk.ofExit next exit.kind scope.scope unwound (Walk.consumedBy (scope :: outer) exit.value)
        exit.note) where
  count := by simp [entry, Walk.ofExit, Walk.leave]
  scopes := by
    rw [List.filter_cons_of_neg (by simp [entry])]
    exact .nil
  edges := by
    have reachable : place.exit? = some exit := by
      simp [Place.exit?, Place.isReachable, stands.passes, way]
    rw [List.filterMap_cons_some reachable]
    exact .cons ⟨_, leaves exit (same ▸ stands) covers counted next⟩ .nil

end StandsAt

/-- A block that is entered stands in what is around it, and has a scope of its own. -/
theorem StandsAt.enter (stands : graph.StandsAt types known around frames next) {role : BlockRole}
    {note : Note} {statements : List Stmt} {isLoopBody : Bool} (hasRole : isLoopBody = role.isLoopBody)
    (entry : (⟨⟨role, .mk note statements, []⟩, around, .opening⟩, next.scope) ∈ known) {inner : Walk}
    (entered : graph.scope? (inner.enclose frames isLoopBody next.scope note).id =
      some ((inner.enclose frames isLoopBody next.scope note).withEdges graph.edges)) :
    graph.StandsAt types known (⟨role, .mk note statements, []⟩ :: around)
      (⟨next.scope, isLoopBody, []⟩ :: frames) { next with scope := next.scope + 1 } where
  toMirrors := hasRole ▸ stands.toMirrors.enter entry
  passes := by simp [allPass_cons, allComplete, stands.passes]
  encloses := stands.encloses.enter entered

/-- Behind statements whose ends can be reached the code stands in the same blocks. -/
theorem StandsAt.behind {own : Enclosing} {outer : List Enclosing} {scope : Frame} {passed : List Stmt}
    {more : List Local} {after : NextIds}
    (stands : graph.StandsAt types known (own :: outer) (scope :: frames) next)
    (declares : DeclareAll types passed more) (complete : allComplete passed = true)
    (onwards : next.scope ≤ after.scope) :
    graph.StandsAt types known ({ own with before := own.before ++ passed } :: outer)
      ({ scope with locals := scope.locals ++ more } :: frames) after where
  toMirrors := stands.toMirrors.behind declares
  passes := by
    have passes := stands.passes
    rw [allPass_cons] at passes ⊢
    rw [allComplete_append, complete, Bool.and_true]
    exact passes
  encloses := stands.encloses.later onwards

/-- The scope of a block that control enters. -/
theorem StandsAt.opens {entry : Enclosing} {isLoopBody : Bool} {id : ScopeId} {inner : Walk} {after : NextIds}
    (inside : graph.StandsAt types known (entry :: around) (⟨id, isLoopBody, []⟩ :: frames) after)
    (continues : inner.continues = allComplete entry.block.statements)
    (passes : allPass around = true) :
    graph.Opens known (⟨entry, around, .opening⟩, id) (inner.enclose frames isLoopBody id entry.block.note) where
  id := rfl
  block := rfl
  isLoopBody := (List.cons.inj inside.loops).1
  fallsThrough := by
    simp [Walk.enclose, Place.closing, Place.isReachable, Place.around, allPass_cons, continues, passes]
  chain := ⟨_, inside.encloses.chain.chain_eq inside.encloses.distinct, inside.scopes⟩

end ScopeGraph

open ScopeGraph

/-- A walk finds the scopes of the blocks that control can enter and the edges of the exits that
it can come to, each where it stands. -/
theorem Walks.follows {graph : ScopeGraph} {known : List (Place × ScopeId)} {context : WalkContext}
    {frames : List Frame} {next : NextIds} {fragment : Fragment} {walk : Walk}
    (walks : Walks context frames next fragment walk)
    (entered : ∀ scope ∈ walk.scopes, graph.scope? scope.id = some (scope.withEdges graph.edges))
    (role : BlockRole) (hasRole : fragment.HasRole role) {around : List Enclosing}
    (stands : graph.StandsAt context.bindingTypes known around frames next)
    (covers : graph.Covers (growInnermost walk.locals frames))
    (numbered : AreNumbered known next.scope (fragment.places role around)) :
    graph.Follows context.bindingTypes known (fragment.places role around) next walk := by
  induction walks generalizing role around with
  | declare =>
      obtain ⟨own, outer, rfl⟩ := List.exists_cons_of_length_eq_add_one stands.length_eq
      exact .skip rfl rfl (.nothing (by simp) (by simp) (by simp) rfl rfl)
  | assign =>
      obtain ⟨own, outer, rfl⟩ := List.exists_cons_of_length_eq_add_one stands.length_eq
      exact .skip rfl rfl (.nothing rfl rfl rfl rfl rfl)
  | expr =>
      obtain ⟨own, outer, rfl⟩ := List.exists_cons_of_length_eq_add_one stands.length_eq
      exact .skip rfl rfl (.nothing rfl rfl rfl rfl rfl)
  | spawn =>
      obtain ⟨own, outer, rfl⟩ := List.exists_cons_of_length_eq_add_one stands.length_eq
      exact .skip rfl rfl (.nothing rfl rfl rfl rfl rfl)
  | «return» scope frames next note value =>
      obtain ⟨own, outer, rfl⟩ := List.exists_cons_of_length_eq_add_one stands.length_eq
      have all : scope :: frames = (scope :: frames).take (own :: outer).length := by
        rw [stands.length_eq, List.take_length]
      exact StandsAt.follows ⟨own, outer, .front (.return note value)⟩ stands covers.shrink rfl rfl rfl all
  | «break» next note found =>
      obtain ⟨own, outer, rfl⟩ := List.exists_cons_of_length_eq_add_one stands.length_eq
      have upTo := untilLoop?_eq_take found
      rw [stands.findIdx_eq] at upTo
      exact StandsAt.follows ⟨own, outer, .front (.break note)⟩ stands covers.shrink rfl rfl rfl upTo
  | «continue» next note found =>
      obtain ⟨own, outer, rfl⟩ := List.exists_cons_of_length_eq_add_one stands.length_eq
      have upTo := untilLoop?_eq_take found
      rw [stands.findIdx_eq] at upTo
      exact StandsAt.follows ⟨own, outer, .front (.continue note)⟩ stands covers.shrink rfl rfl rfl upTo
  | block inside ih =>
      obtain ⟨own, outer, rfl⟩ := List.exists_cons_of_length_eq_add_one stands.length_eq
      exact .skip rfl rfl (ih entered .nested rfl stands covers ((areNumbered_skip rfl).mp numbered))
  | branch note condition inside ih =>
      obtain ⟨own, outer, rfl⟩ := List.exists_cons_of_length_eq_add_one stands.length_eq
      exact .skip rfl rfl (ih entered .yes rfl stands (inside.block_locals ▸ covers)
        ((areNumbered_skip rfl).mp numbered)).goesOn
  | branchElse note condition ifYes ifNo yesIH noIH =>
      obtain ⟨own, outer, rfl⟩ := List.exists_cons_of_length_eq_add_one stands.length_eq
      obtain ⟨numberedYes, numberedNo⟩ := areNumbered_append.mp ((areNumbered_skip rfl).mp numbered)
      have yes := yesIH (fun scope member => entered scope (List.mem_append_left _ member)) BlockRole.yes rfl
        stands (ifYes.block_locals ▸ covers) numberedYes
      have no := noIH (fun scope member => entered scope (List.mem_append_right _ member)) BlockRole.no rfl
        { stands with encloses := stands.encloses.later ifYes.numbers.scopes.bounds }
        (ifNo.block_locals ▸ covers) (yes.count ▸ numberedNo)
      exact .skip rfl rfl (yes.append no)
  | loop note condition inside ih =>
      obtain ⟨own, outer, rfl⟩ := List.exists_cons_of_length_eq_add_one stands.length_eq
      exact .skip rfl rfl (ih entered .round rfl stands (inside.block_locals ▸ covers)
        ((areNumbered_skip rfl).mp numbered)).goesOn
  | blockEnd note inside continues ih =>
      have within := covers_enter covers (entered _ List.mem_cons_self)
      rw [Fragment.places, AreNumbered, Block.filter_places stands.passes] at numbered
      have enters := stands.enter hasRole (numbered _ List.mem_cons_self) (entered _ List.mem_cons_self)
      have follows := ih (fun scope member => entered scope (List.mem_cons_of_mem _ member)) role trivial
        enters within (fun entry member => numbered entry (List.mem_cons_of_mem _ member))
      have complete : allComplete _ = true := inside.continues_eq.symm.trans continues
      have atEnd := enters.behind (inside.declaresAll continues) complete (Int.le_refl _)
      refine follows.enclose stands.passes (enters.opens inside.continues_eq stands.passes) ?_ rfl rfl rfl
      rw [if_pos complete]
      exact .cons ⟨_, StandsAt.leaves ⟨_, _, _, _⟩ atEnd within rfl _⟩ .nil
  | blockExit note inside ends ih =>
      have within := covers_enter covers (entered _ List.mem_cons_self)
      rw [Fragment.places, AreNumbered, Block.filter_places stands.passes] at numbered
      have enters := stands.enter hasRole (numbered _ List.mem_cons_self) (entered _ List.mem_cons_self)
      have follows := ih (fun scope member => entered scope (List.mem_cons_of_mem _ member)) role trivial
        enters within (fun entry member => numbered entry (List.mem_cons_of_mem _ member))
      have blocked : allComplete _ = false := inside.continues_eq.symm.trans ends
      refine follows.enclose stands.passes (enters.opens inside.continues_eq stands.passes) ?_ rfl rfl
        (List.append_nil _).symm
      rw [if_neg (by simp [blocked])]
      exact .nil
  | nil =>
      obtain ⟨own, outer, rfl⟩ := List.exists_cons_of_length_eq_add_one stands.length_eq
      exact .nothing rfl rfl rfl rfl rfl
  | next before continues behind beforeIH behindIH =>
      obtain ⟨own, outer, rfl⟩ := List.exists_cons_of_length_eq_add_one stands.length_eq
      rw [growInnermost_append] at covers
      rw [Fragment.sequence_places] at numbered ⊢
      obtain ⟨numberedFirst, numberedRest⟩ := areNumbered_append.mp numbered
      have first := beforeIH (fun scope member => entered scope (List.mem_append_left _ member)) role trivial
        stands covers.shrink numberedFirst
      have completes : Stmt.completes _ = true := before.continues_eq.symm.trans continues
      have onwards := stands.behind before.declares (by simp [allComplete, completes])
        before.numbers.scopes.bounds
      have rest := behindIH (fun scope member => entered scope (List.mem_append_right _ member)) role trivial
        onwards covers (first.count ▸ numberedRest)
      exact first.append rest
  | @stop scope frames next statement statements first before ends ih =>
      obtain ⟨own, outer, rfl⟩ := List.exists_cons_of_length_eq_add_one stands.length_eq
      rw [Fragment.sequence_places] at numbered ⊢
      have stops : statement.completes = false := before.continues_eq.symm.trans ends
      have blocked : allPass ({ own with before := own.before ++ [statement] } :: outer) = false := by
        simp [allPass_cons, allComplete_append, allComplete, stops]
      exact (ih entered role trivial stands covers (areNumbered_append.mp numbered).1).ignore
        (placesIn_blocked blocked statements)

/-- The edges at the ends of blocks are those of the blocks whose ends control can come to. -/
theorem Walks.ends_perm {context : WalkContext} {frames : List Frame} {next : NextIds} {fragment : Fragment}
    {walk : Walk} (walks : Walks context frames next fragment walk) :
    ((walk.edges.filter fun edge => edge.kind = .fallthrough).map ExitEdge.origin).Perm
      ((walk.scopes.filter Scope.fallsThrough).map Scope.id) := by
  induction walks with
  | declare => simp
  | assign => exact .refl _
  | expr => exact .refl _
  | spawn => exact .refl _
  | «return» => exact .refl _
  | «break» => exact .refl _
  | «continue» => exact .refl _
  | block inside ih => exact ih
  | branch note condition inside ih => exact ih
  | branchElse note condition ifYes ifNo yesIH noIH =>
      simp only [List.filter_append, List.map_append]
      exact yesIH.append noIH
  | loop note condition inside ih => exact ih
  | blockEnd note inside continues ih =>
      simp only [List.filter_append, List.map_append]
      rw [List.filter_cons_of_pos (p := Scope.fallsThrough) continues, List.map_cons]
      exact (List.perm_append_singleton _ _).trans (ih.cons _)
  | blockExit note inside ends ih =>
      dsimp only
      rw [List.filter_cons_of_neg (by simp [Walk.enclose, ends])]
      exact ih
  | nil => exact .refl _
  | next before continues behind beforeIH behindIH =>
      simp only [List.filter_append, List.map_append]
      exact beforeIH.append behindIH
  | stop statements before ends ih => exact ih

end LifecycleHooks

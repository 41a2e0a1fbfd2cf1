import LifecycleHooks.Proofs.Lifting.Failures
import LifecycleHooks.Proofs.Scope.Following

/-!
# Exits and edges

A procedure has a scope graph unless it leaves a loop where there is none, at a place that
control can come to.  The graph has one scope for each block that control can enter and one
edge for each way out that control can come to, and it passes the check of its exits.  None of
this depends on how the nodes are numbered or how the names are bound.
-/

namespace LifecycleHooks

/-- The first exit among places that control can come to which leaves a loop where there is none. -/
def stray? (places : List Place) : Option Exit := (places.filterMap Place.exit?).find? Exit.isStray

section Stray

variable {own : Enclosing} {outer : List Enclosing}

theorem stray?_append (before behind : List Place) :
    stray? (before ++ behind) = (stray? before).or (stray? behind) := by
  simp [stray?, List.find?_append]

theorem stray?_front {statement : Stmt} (way : Place.way? ⟨own, outer, .front statement⟩ = none)
    (role : BlockRole) :
    stray? ((Fragment.statement statement).places role (own :: outer)) =
      stray? (statement.places (own :: outer)) := by
  simp [stray?, Fragment.places, Place.exit?, way]

/-- The end of a block leaves no loop. -/
theorem stray?_block (passes : allPass outer = true) (role : BlockRole) (note : Note) (statements : List Stmt) :
    stray? ((Block.mk note statements).places outer role) =
      stray? ((Fragment.sequence statements).places role (⟨role, .mk note statements, []⟩ :: outer)) := by
  rw [stray?, Block.filterMap_places passes, List.find?_append]
  cases allComplete statements <;> simp [stray?, Fragment.places, Exit.isStray]

theorem stray?_blocked {places : List Place} (blocked : ∀ place ∈ places, place.isReachable = false) :
    stray? places = none := by
  rw [stray?, filterMap_exit?_blocked blocked]
  rfl

end Stray

/-- A fragment can be walked over unless it leaves a loop where there is none, at one of the places
that control can come to; then the first such exit is told. -/
def Fragment.WalksUnless (context : WalkContext) (frames : List Frame) (next : NextIds)
    (fragment : Fragment) : (stray : Option Exit) → Prop
  | none => ∃ walk, Walks context frames next fragment walk
  | some exit =>
      fragment.walk context frames next = .error (.loopControlOutsideLoop exit.kind.word context.procedure)

/-- A fragment is walked over as its first part is and then as what is left of it is. -/
theorem Fragment.WalksUnless.andThen {context : WalkContext} {frames outer : List Frame}
    {next first : NextIds} {part whole : Fragment} {early late : Option Exit}
    (before : part.WalksUnless context frames first early)
    (fails : ∀ fault, part.walk context frames first = .error fault →
      whole.walk context outer next = .error fault)
    (behind : ∀ walk, Walks context frames first part walk → whole.WalksUnless context outer next late) :
    whole.WalksUnless context outer next (early.or late) := by
  cases early with
  | none =>
      obtain ⟨walk, walks⟩ := before
      exact behind walk walks
  | some exit => exact fails _ before

/-- A fragment is walked over as the one part of it is. -/
theorem Fragment.WalksUnless.lift {context : WalkContext} {frames outer : List Frame}
    {next first : NextIds} {part whole : Fragment} {stray : Option Exit}
    (inside : part.WalksUnless context frames first stray)
    (fails : ∀ fault, part.walk context frames first = .error fault →
      whole.walk context outer next = .error fault)
    (walks : ∀ walk, Walks context frames first part walk → ∃ walk, Walks context outer next whole walk) :
    whole.WalksUnless context outer next stray := by
  have all : whole.WalksUnless context outer next (stray.or none) := inside.andThen fails walks
  rwa [Option.or_none] at all

theorem untilLoop?_eq_none {frames : List Frame} (outside : frames.any Frame.isLoopBody = false) :
    Walk.untilLoop? frames = none := by
  induction frames with
  | nil => rfl
  | cons frame outer ih =>
      obtain ⟨here, around⟩ := Bool.or_eq_false_iff.mp (List.any_cons ▸ outside)
      rw [Walk.untilLoop?, if_neg (by simp [here]), ih around]
      rfl

/-- Around a `break` or `continue` there is a loop exactly when some frame is that of a loop body. -/
theorem walksUnless_loopExit {context : WalkContext} {frames : List Frame} {next : NextIds}
    {fragment : Fragment} {place : Place} {exit : Exit} (passes : place.isReachable = true)
    (way : place.way? = some exit) (leaves : exit.kind = .break ∨ exit.kind = .continue)
    (loops : frames.map Frame.isLoopBody = exit.around.map fun enclosing => enclosing.role.isLoopBody)
    (walks : ∀ unwound, Walk.untilLoop? frames = some unwound →
      ∃ walk, Walks context frames next fragment walk)
    (fails : Walk.untilLoop? frames = none → fragment.walk context frames next =
      .error (.loopControlOutsideLoop exit.kind.word context.procedure)) :
    fragment.WalksUnless context frames next (stray? [place]) := by
  have same : (exit.around.any fun enclosing => enclosing.role.isLoopBody) = frames.any Frame.isLoopBody := by
    have anyLoop := congrArg (List.any · id) loops
    simpa [List.any_map, Function.comp_def] using anyLoop.symm
  have isStray : exit.isStray = !frames.any Frame.isLoopBody := by
    rcases leaves with kind | kind <;> simp [Exit.isStray, kind, same]
  have first : stray? [place] = if exit.isStray then some exit else none := by
    simp [stray?, Place.exit?, passes, way, List.find?_cons]
    cases exit.isStray <;> rfl
  rw [first, isStray]
  cases inside : frames.any Frame.isLoopBody with
  | true =>
      obtain ⟨unwound, found⟩ := untilLoop?_of_any inside
      exact walks unwound found
  | false => exact fails (untilLoop?_eq_none inside)

mutual

/-- Every statement can be walked over unless it leaves a loop where there is none. -/
theorem Stmt.walksUnless (context : WalkContext) {own : Enclosing} {outer : List Enclosing} {scope : Frame}
    {frames : List Frame}
    (loops : (scope :: frames).map Frame.isLoopBody =
      (own :: outer).map fun enclosing => enclosing.role.isLoopBody)
    (passes : allPass (own :: outer) = true) (role : BlockRole) (next : NextIds) : (statement : Stmt) →
    (Fragment.statement statement).WalksUnless context (scope :: frames) next
      (stray? ((Fragment.statement statement).places role (own :: outer)))
  | .declare .. => by
      rw [stray?_front rfl]
      exact ⟨_, .declare ..⟩
  | .assign .. => by
      rw [stray?_front rfl]
      exact ⟨_, .assign ..⟩
  | .expr .. => by
      rw [stray?_front rfl]
      exact ⟨_, .expr ..⟩
  | .spawn .. => by
      rw [stray?_front rfl]
      exact ⟨_, .spawn ..⟩
  | .return note value => by
      have none : stray? ((Fragment.statement (.return note value)).places role (own :: outer)) = none := by
        simp [stray?, Fragment.places, Stmt.places, Place.exit?, Place.isReachable, Place.around, passes,
          Place.way?, Exit.isStray]
      rw [none]
      exact ⟨_, .return ..⟩
  | .break note =>
      walksUnless_loopExit passes rfl (.inl rfl) loops (fun _ found => ⟨_, .break next note found⟩)
        (fun none => by simp only [Fragment.walk, Stmt.walk, Walk.ofLoopExit, none])
  | .continue note =>
      walksUnless_loopExit passes rfl (.inr rfl) loops (fun _ found => ⟨_, .continue next note found⟩)
        (fun none => by simp only [Fragment.walk, Stmt.walk, Walk.ofLoopExit, none])
  | .block block => by
      rw [stray?_front rfl]
      exact (block.walksUnless context loops passes .nested false rfl next).lift (fun _ fails => fails)
        fun _ walks => ⟨_, .block walks⟩
  | .branch note condition yes none => by
      rw [stray?_front rfl]
      refine (yes.walksUnless context loops passes .yes false rfl next).lift (fun fault fails => ?_)
        fun _ walks => ⟨_, .branch _ _ walks⟩
      simp only [Fragment.walk, Stmt.walk] at fails ⊢
      rw [fails]
      rfl
  | .branch note condition yes (some no) => by
      rw [stray?_front rfl, Stmt.places, stray?_append]
      refine (yes.walksUnless context loops passes .yes false rfl next).andThen (fun fault fails => ?_)
        fun first ifYes => ?_
      · simp only [Fragment.walk, Stmt.walk] at fails ⊢
        rw [fails]
        rfl
      · refine (no.walksUnless context loops passes .no false rfl first.next).lift (fun fault fails => ?_)
          fun _ ifNo => ⟨_, .branchElse _ _ ifYes ifNo⟩
        have run := ifYes.run
        simp only [Fragment.walk, Stmt.walk] at fails run ⊢
        rw [run, ok_bind, fails]
        rfl
  | .loop note condition body => by
      rw [stray?_front rfl]
      refine (body.walksUnless context loops passes .round true rfl next).lift (fun fault fails => ?_)
        fun _ walks => ⟨_, .loop _ _ walks⟩
      simp only [Fragment.walk, Stmt.walk] at fails ⊢
      rw [fails]
      rfl

/-- Every block can be walked over unless it leaves a loop where there is none. -/
theorem Block.walksUnless (context : WalkContext) {outer : List Enclosing} {frames : List Frame}
    (loops : frames.map Frame.isLoopBody = outer.map fun enclosing => enclosing.role.isLoopBody)
    (passes : allPass outer = true) (role : BlockRole) (isLoopBody : Bool)
    (hasRole : isLoopBody = role.isLoopBody) (next : NextIds) : (block : Block) →
    (Fragment.block isLoopBody block).WalksUnless context frames next (stray? (block.places outer role))
  | .mk note statements => by
      rw [stray?_block passes]
      have around : (⟨next.scope, isLoopBody, []⟩ :: frames).map Frame.isLoopBody =
          (⟨role, .mk note statements, []⟩ :: outer).map fun enclosing => enclosing.role.isLoopBody := by
        simp [hasRole, loops]
      have passed : allPass (⟨role, .mk note statements, []⟩ :: outer) = true := by
        simp [allPass_cons, allComplete, passes]
      have inside := allWalkUnless context _ _ around passed role { next with scope := next.scope + 1 } statements
      refine inside.lift (fun fault fails => ?_) fun walk walks => ?_
      · simp only [Fragment.walk, Block.walk] at fails ⊢
        rw [fails]
        rfl
      · cases continues : walk.continues with
        | true => exact ⟨_, .blockEnd note walks continues⟩
        | false => exact ⟨_, .blockExit note walks continues⟩

/-- All statements of a list can be walked over unless one leaves a loop where there is none. -/
theorem allWalkUnless (context : WalkContext) (own : Enclosing) {outer : List Enclosing} (scope : Frame)
    {frames : List Frame}
    (loops : (scope :: frames).map Frame.isLoopBody =
      (own :: outer).map fun enclosing => enclosing.role.isLoopBody)
    (passes : allPass (own :: outer) = true) (role : BlockRole) (next : NextIds) : (statements : List Stmt) →
    (Fragment.sequence statements).WalksUnless context (scope :: frames) next
      (stray? ((Fragment.sequence statements).places role (own :: outer)))
  | [] => ⟨_, .nil ..⟩
  | statement :: statements => by
      rw [Fragment.sequence_places, stray?_append]
      refine (statement.walksUnless context loops passes role next).andThen (fun fault fails => ?_)
        fun first before => ?_
      · simp only [Fragment.walk, walkStmts] at fails ⊢
        rw [fails]
        rfl
      · cases continues : first.continues with
        | true =>
            have completes : statement.completes = true := before.continues_eq.symm.trans continues
            have behind := allWalkUnless context { own with before := own.before ++ [statement] }
              { scope with locals := scope.locals ++ first.locals } loops
              (by simpa [allPass_cons, allComplete_append, allComplete, completes] using passes) role first.next
              statements
            refine behind.lift (fun fault fails => ?_) fun _ rest => ⟨_, .next before continues rest⟩
            have run := before.run
            simp only [Fragment.walk, walkStmts] at fails run ⊢
            rw [run, ok_bind, if_pos continues, fails]
            rfl
        | false =>
            have stops : statement.completes = false := before.continues_eq.symm.trans continues
            have blocked : allPass ({ own with before := own.before ++ [statement] } :: outer) = false := by
              simp [allPass_cons, allComplete_append, allComplete, stops]
            rw [Fragment.places, stray?_blocked (placesIn_blocked blocked statements)]
            exact ⟨_, .stop _ before continues⟩

end

namespace ScopeGraph

variable {graph : ScopeGraph} {types : BindingTypes} {known : List (Place × ScopeId)}

/-- An edge is that of an exit: it is anchored where the exit stands, starts in the innermost block
around it, and unwinds as many of the scopes around it as the exit leaves blocks. -/
structure EdgeOf (graph : ScopeGraph) (known : List (Place × ScopeId)) (exit : Exit) (edge : ExitEdge) :
    Prop where
  kind : edge.kind = exit.kind
  anchor : edge.anchor = exit.note.id
  span : edge.span = exit.note.span
  unwound : ∃ ids, graph.chain edge.origin = .ok ids ∧ AreScopesOf known exit.around ids ∧
    edge.unwound = ids.take exit.depth

theorem LeavesFrames.edgeOf {frames : List Frame} {exit : Exit} {edge : ExitEdge}
    (leaves : graph.LeavesFrames types known frames exit edge) : graph.EdgeOf known exit edge where
  kind := leaves.kind
  anchor := leaves.anchor
  span := leaves.span
  unwound := by
    obtain ⟨outer, chain⟩ : ∃ outer, frames.map Frame.scope = edge.origin :: outer :=
      List.head?_eq_some_iff.mp leaves.origin
    refine ⟨frames.map Frame.scope, ?_, leaves.scopes, ?_⟩
    · have chains := leaves.chains
      have distinct := leaves.distinct
      rw [chain] at chains distinct ⊢
      exact chains.chain_eq distinct
    · rw [leaves.unwound, List.map_take]

/-- The edges at the end of a block. -/
def endsOf (graph : ScopeGraph) (id : ScopeId) : List ExitEdge :=
  graph.edges.filter fun edge => edge.origin = id ∧ edge.kind = .fallthrough

/-- An edge at the end of a block unwinds nothing else. -/
theorem LeavesFrames.unwound_fallthrough {frames : List Frame} {exit : Exit} {edge : ExitEdge}
    (leaves : graph.LeavesFrames types known frames exit edge) (ends : edge.kind = .fallthrough) :
    edge.unwound = [edge.origin] := by
  have depth : exit.depth = 1 := by
    have kind : exit.kind = .fallthrough := leaves.kind.symm.trans ends
    simp [Exit.depth, kind]
  obtain ⟨outer, chain⟩ : ∃ outer, frames.map Frame.scope = edge.origin :: outer :=
    List.head?_eq_some_iff.mp leaves.origin
  rw [leaves.unwound, depth, List.map_take, chain]
  rfl

end ScopeGraph

/-- The end of a block has a single edge, which unwinds just the block, if control can come there. -/
theorem Walks.endsOf_eq {procedure : Procedure} {types : BindingTypes} {walk : Walk}
    (walks : Walks ⟨procedure.name, types⟩ [] {} (.block false procedure.body) walk)
    (alone : ∀ edge ∈ walk.edges, edge.kind = .fallthrough → edge.unwound = [edge.origin])
    {scope : Scope} (member : scope ∈ walk.scopes) :
    ((walk.graph procedure.name).endsOf scope.id).map ExitEdge.unwound =
      if scope.fallsThrough then [[scope.id]] else [] := by
  have unwound : ∀ edge ∈ (walk.graph procedure.name).endsOf scope.id, edge.unwound = [scope.id] := by
    intro edge inside
    obtain ⟨known, ends⟩ := List.mem_filter.mp inside
    obtain ⟨origin, kind⟩ := of_decide_eq_true ends
    rw [alone edge known kind, origin]
  have listed : (walk.scopes.map Scope.id).Nodup := walks.numbers.scopes.distinct
  have counted : ((walk.graph procedure.name).endsOf scope.id).length =
      if scope.fallsThrough then 1 else 0 :=
    calc ((walk.graph procedure.name).endsOf scope.id).length
        = ((walk.edges.filter fun edge => edge.kind = .fallthrough).map ExitEdge.origin).count scope.id := by
          rw [ScopeGraph.endsOf, ← List.countP_eq_length_filter, List.count, List.countP_map, List.countP_filter]
          exact List.countP_congr fun edge _ => by simp
      _ = ((walk.scopes.filter Scope.fallsThrough).map Scope.id).count scope.id := walks.ends_perm.count_eq _
      _ = if scope.id ∈ (walk.scopes.filter Scope.fallsThrough).map Scope.id then 1 else 0 :=
          (listed.sublist (List.filter_sublist.map _)).count
      _ = if scope.fallsThrough then 1 else 0 := by
          refine if_congr ⟨fun inside => ?_, fun falls => ?_⟩ rfl rfl
          · obtain ⟨other, found, same⟩ := List.mem_map.mp inside
            obtain ⟨inScopes, falls⟩ := List.mem_filter.mp found
            rwa [← List.inj_on_of_nodup_map listed inScopes member same]
          · exact List.mem_map_of_mem (List.mem_filter.mpr ⟨member, falls⟩)
  rw [List.eq_replicate_of_mem (List.forall_mem_map.mpr unwound), List.length_map, counted]
  cases scope.fallsThrough <;> rfl

/-- The graph of a walk over the body of a procedure follows the places in it. -/
theorem Walks.follows_procedure {procedure : Procedure} {types : BindingTypes} {walk : Walk}
    (walks : Walks ⟨procedure.name, types⟩ [] {} (.block false procedure.body) walk) :
    (walk.graph procedure.name).Follows types procedure.scopes procedure.places {} walk := by
  have stands : (walk.graph procedure.name).StandsAt types procedure.scopes [] [] {} :=
    ⟨⟨.nil, rfl, .nil⟩, rfl, trivial, List.nodup_nil, by simp⟩
  exact walks.follows walks.entered .body rfl stands (by simp [ScopeGraph.Covers, growInnermost])
    fun entry member => member

/-- A procedure that leaves a loop where there is none, at a place that control can come to, has no
scope graph.  Every other procedure has one that passes the check of its exits, so that no edge is
missed when they are scheduled: it has one scope for each block that control can enter and one edge
for each exit that control can come to.  An edge unwinds the scopes of the blocks that its exit
leaves, and the end of a block has a single edge if control can come there. -/
theorem Procedure.scopeGraph_exits (procedure : Procedure) (types : BindingTypes) :
    match procedure.exits.find? Exit.isStray with
    | some exit =>
        procedure.scopeGraph types = .error (.loopControlOutsideLoop exit.kind.word procedure.name)
    | none => ∃ graph, procedure.scopeGraph types = .ok graph ∧ graph.verify = .ok () ∧
        (∀ hooks fuel, (ResolveM.schedule hooks fuel graph).Spares Fault.isMissingEdge) ∧
        List.Forall₂ (graph.Opens procedure.scopes) procedure.scopes graph.scopes ∧
        List.Forall₂ (graph.EdgeOf procedure.scopes) procedure.exits graph.edges ∧
        ∀ scope ∈ graph.scopes, (graph.endsOf scope.id).map ExitEdge.unwound =
          if scope.fallsThrough then [[scope.id]] else [] := by
  have outcome : Fragment.WalksUnless ⟨procedure.name, types⟩ [] {} (.block false procedure.body)
      (procedure.exits.find? Exit.isStray) :=
    procedure.body.walksUnless ⟨procedure.name, types⟩ rfl rfl .body false rfl {}
  cases stray : procedure.exits.find? Exit.isStray with
  | some exit =>
      rw [stray] at outcome
      have fails : procedure.body.walk ⟨procedure.name, types⟩ [] false {} = _ := outcome
      unfold Procedure.scopeGraph
      rw [fails]
      rfl
  | none =>
      rw [stray] at outcome
      obtain ⟨walk, walks⟩ := outcome
      let graph := walk.graph procedure.name
      have follows : graph.Follows types procedure.scopes procedure.places {} walk := walks.follows_procedure
      have verified : graph.verify = .ok () := walks.complete.verify
      refine ⟨graph, walks.scopeGraph, verified, fun hooks fuel => ?_, ?_, ?_, ?_⟩
      · exact ResolveM.schedule_spares hooks verified fuel
      · exact List.forall₂_map_right_iff.mpr (follows.scopes.imp fun entry scope opens => { opens with })
      · exact follows.edges.imp fun exit edge ⟨frames, leaves⟩ => leaves.edgeOf
      · intro scope member
        obtain ⟨inner, inside, rfl⟩ := List.mem_map.mp member
        have alone : ∀ edge ∈ walk.edges, edge.kind = .fallthrough → edge.unwound = [edge.origin] := by
          intro edge known ends
          obtain ⟨exit, -, frames, leaves⟩ := TypeTree.exists_of_mem_forall₂ follows.edges edge known
          exact leaves.unwound_fallthrough ends
        have single := walks.endsOf_eq alone inside
        exact single

end LifecycleHooks

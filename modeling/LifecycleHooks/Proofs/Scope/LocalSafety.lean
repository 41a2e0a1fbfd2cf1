import LifecycleHooks.Proofs.Program.Lowering
import LifecycleHooks.Proofs.Scope.Frames
import LifecycleHooks.Proofs.Scope.Release
import LifecycleHooks.Proofs.Scope.Schedule

/-!
# Safety of locals

The destructions that are scheduled for a lowered procedure release its locals: on every
execution each local whose destruction runs a hook is destroyed or handed over exactly
once, the latest first, and nothing else is destroyed.
-/

namespace LifecycleHooks

/-- The guarded bindings among the names that are visible, the latest first. -/
def liveBindings (guarded : BindingId → Prop) [DecidablePred guarded] (names : Names) :
    List BindingId :=
  (names.map Prod.snd).filter guarded

section Live

variable {guarded : BindingId → Prop} [DecidablePred guarded]

theorem liveBindings_append (first second : Names) :
    liveBindings guarded (first ++ second) =
      liveBindings guarded first ++ liveBindings guarded second := by
  simp [liveBindings]

theorem mem_liveBindings {names : Names} {binding : BindingId} :
    binding ∈ liveBindings guarded names ↔ binding ∈ names.map Prod.snd ∧ guarded binding := by
  simp [liveBindings]

theorem liveBindings_nodup {first : BindingId} {names : Names}
    (descending : Descending first names) : (liveBindings guarded names).Nodup := by
  refine List.Nodup.filter _ ?_
  have ordered := (List.pairwise_cons.mp descending).2
  exact ordered.imp fun above => Int.ne_of_gt above

end Live

namespace ScopeGraph

/-- The locals of frames are the first ones of their scopes. -/
def Covers (graph : ScopeGraph) (frames : List Frame) : Prop :=
  ∀ frame ∈ frames, ∃ scope, graph.scope? frame.scope = some scope ∧
    frame.locals <+: scope.locals

theorem Covers.shrink {graph : ScopeGraph} {more : List Local} {frames : List Frame}
    (covers : graph.Covers (growInnermost more frames)) : graph.Covers frames := by
  cases frames with
  | nil => exact covers
  | cons scope outer =>
      intro frame member
      rcases List.mem_cons.mp member with rfl | around
      · obtain ⟨found, isScope, inside⟩ := covers _ List.mem_cons_self
        exact ⟨found, isScope, (List.prefix_append _ _).trans inside⟩
      · exact covers frame (List.mem_cons_of_mem _ around)

theorem lookup_of_nodup {frames : List Frame} (distinct : (frames.map Frame.scope).Nodup)
    {frame : Frame} (member : frame ∈ frames) :
    (frames.map fun frame => (frame.scope, (frame.locals.length : Int))).lookup frame.scope =
      some (frame.locals.length : Int) := by
  have scopes : (frames.map fun frame => (frame.scope, (frame.locals.length : Int))).map Prod.fst =
      frames.map Frame.scope := by simp
  exact lookup_of_mem (scopes ▸ distinct) (List.mem_map_of_mem member)

/-- The live locals of a scope that an edge unwinds are those of its frame. -/
theorem liveLocals_of_covers {graph : ScopeGraph} {edge : ExitEdge} {unwound : List Frame}
    (live : edge.live = unwound.map fun frame => (frame.scope, (frame.locals.length : Int)))
    (distinct : (unwound.map Frame.scope).Nodup) (covers : graph.Covers unwound) {frame : Frame}
    (member : frame ∈ unwound) : graph.liveLocals edge frame.scope = .ok frame.locals.reverse := by
  obtain ⟨scope, found, more, same⟩ := covers frame member
  have counted : (edge.live.lookup frame.scope).getD 0 = (frame.locals.length : Int) := by
    rw [live, lookup_of_nodup distinct member]
    rfl
  have known : graph.scope frame.scope = .ok scope := by
    unfold ScopeGraph.scope
    rw [found]
  unfold liveLocals
  rw [known]
  change Except.ok _ = _
  rw [counted, ← same]
  simp [firstItems]

end ScopeGraph
section Edges

variable {hooks : Registry} {graph : ScopeGraph} {guarded : BindingId → Prop}
  [DecidablePred guarded] {final : Resolver}

/-- What is known of a guarded local is that its destruction runs a hook. -/
def Watches (hooks : Registry) (final : Resolver) (guarded : BindingId → Prop)
    (declared : Local) : Prop :=
  final.KnowsDestruction hooks declared.type →
    (guarded declared.binding ↔ final.runsHook declared.type = true)

/-- In one scope the live guarded locals are destroyed, but for those that are handed
over. -/
theorem scope_bindings {consumed : List BindingId} {locals : List Local}
    {scheduled : List ScheduledDestroy}
    (schedules : ResolveM.SchedulesAll hooks final
      (locals.filter fun declared => declared.binding ∉ consumed) scheduled)
    (watches : ∀ declared ∈ locals, Watches hooks final guarded declared) :
    scheduled.map (·.declared.binding) =
      ((locals.map Local.binding).filter guarded).filter (· ∉ consumed) := by
  obtain ⟨knows, same⟩ := schedules
  have asBindings : scheduled.map (·.declared.binding) =
      (scheduled.map ScheduledDestroy.declared).map Local.binding := by simp
  rw [asBindings, same, List.filter_map, List.filter_map, List.filter_filter, List.filter_filter]
  congr 1
  refine List.filter_congr fun declared member => ?_
  by_cases kept : declared.binding ∈ consumed
  · simp [kept]
  · have known := knows declared (List.mem_filter.mpr ⟨member, by simpa using kept⟩)
    have watched := watches declared member known
    by_cases runs : final.runsHook declared.type = true <;> simp [kept, runs, watched]

/-- On an edge the live guarded locals of the unwound frames are destroyed, but for those
that are handed over, the latest first. -/
theorem edge_bindings {edge : ExitEdge} {unwound : List Frame}
    {scheduled : List ScheduledDestroy}
    (schedules : ResolveM.SchedulesEdge hooks graph final edge scheduled)
    (scopes : edge.unwound = unwound.map Frame.scope)
    (live : edge.live = unwound.map fun frame => (frame.scope, (frame.locals.length : Int)))
    (distinct : (unwound.map Frame.scope).Nodup) (covers : graph.Covers unwound)
    (watches : ∀ frame ∈ unwound, ∀ declared ∈ frame.locals,
      Watches hooks final guarded declared) :
    scheduled.map (·.declared.binding) =
      (liveBindings guarded (frameNames unwound)).filter (· ∉ edge.consumed) := by
  obtain ⟨parts, rfl, each⟩ := schedules
  rw [scopes, List.forall₂_map_left_iff] at each
  have liveIn : ∀ frame ∈ unwound, graph.liveLocals edge frame.scope = .ok frame.locals.reverse :=
    fun frame member => ScopeGraph.liveLocals_of_covers live distinct covers member
  clear scopes live distinct covers
  induction each with
  | nil => rfl
  | @cons frame part unwound parts here rest ih =>
      obtain ⟨live, isLive, schedules⟩ := here
      obtain rfl := Except.ok.inj ((liveIn frame List.mem_cons_self).symm.trans isLive)
      have watched : ∀ declared ∈ frame.locals.reverse, Watches hooks final guarded declared :=
        fun declared member =>
          watches frame List.mem_cons_self declared (List.mem_reverse.mp member)
      have first := scope_bindings schedules watched
      have others := ih (fun frame member => watches frame (List.mem_cons_of_mem _ member))
        (fun frame member => liveIn frame (List.mem_cons_of_mem _ member))
      have names : frameNames (frame :: unwound) = frameNames [frame] ++ frameNames unwound :=
        frameNames_append [frame] unwound
      rw [List.flatten_cons, List.map_append, others, first, names, liveBindings_append,
        List.filter_append]
      simp [liveBindings, frameNames, Function.comp_def]

end Edges
/-- The names that can be seen outside of the innermost loop. -/
def namesOutsideLoop (outside : Names) : List Frame → Option Names
  | [] => none
  | frame :: outer =>
      if frame.isLoopBody then some (frameNames outer ++ outside)
      else namesOutsideLoop outside outer

/-- The names that can be seen outside of the innermost loop around a fragment. -/
def Fragment.outsideLoop (outside visible : Names) (frames : List Frame) :
    Fragment → Option Names
  | .block true _ => some visible
  | .block false _ | .statement _ | .sequence _ => namesOutsideLoop outside frames

theorem namesOutsideLoop_of_untilLoop? {outside : Names} {frames unwound : List Frame}
    (found : Walk.untilLoop? frames = some unwound) :
    ∃ rest, frames = unwound ++ rest ∧
      namesOutsideLoop outside frames = some (frameNames rest ++ outside) := by
  induction frames generalizing unwound with
  | nil => simp [Walk.untilLoop?] at found
  | cons frame outer ih =>
      unfold Walk.untilLoop? at found
      unfold namesOutsideLoop
      split at found
      · rename_i isLoopBody
        obtain rfl := Option.some.inj found
        exact ⟨outer, rfl, by rw [if_pos isLoopBody]⟩
      · rename_i isNoLoopBody
        obtain ⟨inner, foundInner, rfl⟩ := Option.map_eq_some_iff.mp found
        obtain ⟨rest, rfl, same⟩ := ih foundInner
        exact ⟨rest, rfl, by rw [if_neg isNoLoopBody, same]⟩

namespace Walks

variable {hooks : Registry} {graph : ScopeGraph} {guarded : BindingId → Prop}
  [DecidablePred guarded] {final : Resolver} {schedule : ExitSchedule} {context : WalkContext}
  {isLocal : BindingId → Prop} {outside : Names}
  (scheduled : ∀ edge ∈ graph.edges,
    ResolveM.SchedulesEdge hooks graph final edge (schedule.atAnchor edge.anchor))
  (guards : ∀ declared : Local, isLocal declared.binding ∧
    context.bindingTypes.lookup declared.binding = some declared.type →
      Watches hooks final guarded declared)
  (unguarded : ∀ entry ∈ outside, ¬ guarded entry.2)

include scheduled guards in
/-- Where control leaves frames, their live guarded locals are destroyed, but for those that
are handed over. -/
theorem exit_bindings {frames unwound rest : List Frame} {next : NextIds}
    {first : BindingId} {visible : Names} {kind : ExitKind} {origin : ScopeId}
    {consumed : List BindingId} {note : Note} {edges : NextIds}
    (inGraph : (Walk.leave edges kind origin unwound consumed note).1 ∈ graph.edges)
    (situated : Situated context.bindingTypes isLocal outside frames next first visible)
    (covers : graph.Covers frames) (innermost : frames = unwound ++ rest) :
    (schedule.atAnchor note.id).map (·.declared.binding) =
      (liveBindings guarded (frameNames unwound)).filter (· ∉ consumed) := by
  subst innermost
  have distinct := situated.distinct
  rw [List.map_append] at distinct
  refine edge_bindings (scheduled _ inGraph) rfl rfl (List.Nodup.of_append_left distinct)
    (fun frame member => covers frame (List.mem_append_left _ member)) ?_
  exact fun frame member declared inside =>
    guards declared (situated.locals frame (List.mem_append_left _ member) declared inside)

include unguarded in
theorem liveBindings_outside (frames : List Frame) :
    liveBindings guarded (frameNames frames ++ outside) =
      liveBindings guarded (frameNames frames) := by
  have none : liveBindings guarded outside = [] := by
    refine List.filter_eq_nil_iff.mpr fun binding member => ?_
    obtain ⟨entry, inside, rfl⟩ := List.mem_map.mp member
    simpa using unguarded entry inside
  rw [liveBindings_append, none, List.append_nil]

include unguarded in
/-- What a `return` does not hand over of the frames is all that is live but for the binding
it names. -/
theorem return_bindings {types : BindingTypes} {frames : List Frame} {next : NextIds}
    {first : BindingId} {visible : Names} {value : Option Expr}
    (situated : Situated types isLocal outside frames next first visible)
    (named : ReturnsVisible visible value) :
    (liveBindings guarded (frameNames frames)).filter (· ∉ Walk.consumedBy frames value) =
      (returned? value).elim (liveBindings guarded visible) (liveBindings guarded visible).erase := by
  have consumes := mem_consumedBy situated.names named
  have same : liveBindings guarded visible = liveBindings guarded (frameNames frames) := by
    rw [situated.names, liveBindings_outside unguarded]
  have distinct : (liveBindings guarded (frameNames frames)).Nodup :=
    same ▸ liveBindings_nodup situated.descending
  rw [same]
  cases returned : returned? value with
  | none =>
      refine List.filter_eq_self.mpr fun binding member => ?_
      simp [consumes, returned]
  | some binding =>
      rw [Option.elim_some, distinct.erase_eq_filter]
      refine List.filter_congr fun other member => ?_
      have bound := (mem_liveBindings.mp member).1
      have consumed : other ∈ Walk.consumedBy frames value ↔ other = binding := by
        rw [consumes, returned, Option.some.injEq, eq_comm]
        exact and_iff_left bound
      simp only [consumed, decide_not]
      rfl

include scheduled guards in
/-- Where control leaves a loop, what is live inside of it is destroyed. -/
theorem loop_bindings {frames unwound : List Frame} {next : NextIds} {first : BindingId}
    {visible : Names} {kind : ExitKind} {origin : ScopeId} {note : Note} {edges : NextIds}
    (found : Walk.untilLoop? frames = some unwound)
    (inGraph : (Walk.leave edges kind origin unwound [] note).1 ∈ graph.edges)
    (situated : Situated context.bindingTypes isLocal outside frames next first visible)
    (covers : graph.Covers frames) :
    ∃ names, namesOutsideLoop outside frames = some names ∧ liveBindings guarded visible =
      (schedule.atAnchor note.id).map (·.declared.binding) ++ liveBindings guarded names := by
  obtain ⟨rest, innermost, around⟩ := namesOutsideLoop_of_untilLoop? found
  have destroyed := exit_bindings scheduled guards inGraph situated covers innermost
  refine ⟨_, around, ?_⟩
  rw [destroyed, situated.names, innermost, frameNames_append, List.append_assoc,
    liveBindings_append]
  simp

theorem left_or_left (yes no : Bool) (live : List BindingId) :
    (if yes then some live else none).or (if no then some live else none) =
      if yes || no then some live else none := by
  cases yes <;> cases no <;> rfl

theorem outsideLoop_block {frames : List Frame} {visible : Names} {isLoopBody : Bool}
    {note : Note} {statements : List Stmt} {id : ScopeId}
    (names : visible = frameNames frames ++ outside) :
    (Fragment.sequence statements).outsideLoop outside visible (⟨id, isLoopBody, []⟩ :: frames) =
      (Fragment.block isLoopBody (.mk note statements)).outsideLoop outside visible frames := by
  cases isLoopBody with
  | true => simp [Fragment.outsideLoop, namesOutsideLoop, names]
  | false => simp [Fragment.outsideLoop, namesOutsideLoop]

theorem covers_enter {frames : List Frame} {isLoopBody : Bool} {id : ScopeId} {note : Note}
    {inner : Walk} (covers : graph.Covers (growInnermost [] frames))
    (entered : graph.scope? (inner.enclose frames isLoopBody id note).id =
      some ((inner.enclose frames isLoopBody id note).withEdges graph.edges)) :
    graph.Covers (growInnermost inner.locals (⟨id, isLoopBody, []⟩ :: frames)) := by
  rw [growInnermost_nil] at covers
  intro frame member
  rcases List.mem_cons.mp member with rfl | around
  · exact ⟨_, entered, List.prefix_rfl⟩
  · exact covers frame around

include scheduled guards unguarded in
/-- The scheduled destructions release the locals of every fragment that is walked over. -/
theorem releases {frames : List Frame} {next : NextIds} {fragment : Fragment} {walk : Walk}
    {inLoop : Bool} {first after : BindingId} {visible seen : Names}
    (walks : Walks context frames next fragment walk)
    (binds : Binds inLoop first visible fragment after seen)
    (typed : ∀ id : Int, first ≤ id → id < after →
      isLocal id ∧ (context.bindingTypes.lookup id).isSome)
    (situated : Situated context.bindingTypes isLocal outside frames next first visible)
    (inGraph : walk.edges ⊆ graph.edges)
    (entered : ∀ scope ∈ walk.scopes, graph.scope? scope.id = some (scope.withEdges graph.edges))
    (covers : graph.Covers (growInnermost walk.locals frames)) :
    Releases guarded (fun anchor => (schedule.atAnchor anchor).map (·.declared.binding))
      ((fragment.outsideLoop outside visible frames).map (liveBindings guarded))
      (liveBindings guarded visible) fragment
      (if walk.continues then some (liveBindings guarded seen) else none) := by
  induction walks generalizing inLoop first after visible seen with
  | declare scope outer next note name value type mutability binding =>
      rw [Walk.ofDeclaration_continues, if_pos rfl]
      have descending := binds.descending situated.descending
      cases binds with
      | declare =>
          by_cases watched : guarded first
          · have fresh : first ∉ liveBindings guarded visible := fun live =>
              Int.lt_irrefl first
                ((List.pairwise_cons.mp situated.descending).1 first (mem_liveBindings.mp live).1)
            have grown : liveBindings guarded ((name, first) :: visible) =
                first :: liveBindings guarded visible := by
              simp [liveBindings, watched]
            rw [grown]
            exact .declare _ _ _ _ _ _ watched fresh
          · have same : liveBindings guarded ((name, first) :: visible) =
                liveBindings guarded visible := by
              simp [liveBindings, watched]
            rw [same]
            exact .declarePlain _ _ _ _ _ _ _ watched
  | assign =>
      cases binds
      exact .assign ..
  | expr =>
      cases binds
      exact .expr ..
  | spawn =>
      cases binds
      exact .spawn ..
  | «return» scope outer next note value =>
      cases binds with
      | «return» _ _ _ named =>
          have destroyed := exit_bindings scheduled guards (inGraph (List.mem_singleton.mpr rfl))
            situated covers.shrink (List.append_nil (scope :: outer)).symm
          refine .return _ (fun binding returned watched => ?_)
            (destroyed.trans (return_bindings unguarded situated named))
          exact mem_liveBindings.mpr ⟨returned_visible named returned, watched⟩
  | «break» next note found =>
      cases binds with
      | «break» =>
          obtain ⟨base, outsideLoop, split⟩ := loop_bindings scheduled guards found
            (inGraph (List.mem_singleton.mpr rfl)) situated covers.shrink
          rw [Fragment.outsideLoop, outsideLoop]
          exact .break split
  | «continue» next note found =>
      cases binds with
      | «continue» =>
          obtain ⟨base, outsideLoop, split⟩ := loop_bindings scheduled guards found
            (inGraph (List.mem_singleton.mpr rfl)) situated covers.shrink
          rw [Fragment.outsideLoop, outsideLoop]
          exact .continue split
  | block inside ih =>
      cases binds with
      | block binds => exact .block (ih binds typed situated inGraph entered covers)
  | branch note condition inside ih =>
      cases binds with
      | branch _ _ binds =>
          have released := ih binds typed situated inGraph entered covers
          obtain rfl := binds.seen_of_block
          exact .branch _ _ released
  | branchElse note condition ifYes ifNo yesIH noIH =>
      cases binds with
      | branchElse _ _ yes no =>
          have onwards := situated.later ifYes.numbers.scopes.bounds yes.next_le
          have ifYesReleased := yesIH yes
            (fun id above below => typed id above (Int.lt_of_lt_of_le below no.next_le)) situated
            (fun edge member => inGraph (List.mem_append_left _ member))
            (fun scope member => entered scope (List.mem_append_left _ member))
            (ifYes.block_locals ▸ covers)
          obtain rfl := yes.seen_of_block
          have ifNoReleased := noIH no
            (fun id above below => typed id (Int.le_trans yes.next_le above) below) onwards
            (fun edge member => inGraph (List.mem_append_right _ member))
            (fun scope member => entered scope (List.mem_append_right _ member))
            (ifNo.block_locals ▸ covers)
          obtain rfl := no.seen_of_block
          have released := Releases.branchElse note condition ifYesReleased ifNoReleased
          rw [left_or_left] at released
          exact released
  | loop note condition inside ih =>
      cases binds with
      | loop _ _ _ binds =>
          have released := ih binds typed situated inGraph entered covers
          obtain rfl := binds.seen_of_block
          exact .loop _ _ _ released
  | blockEnd note inside continues ih =>
      cases binds with
      | scope _ _ binds =>
          have inside' := covers_enter covers (entered _ List.mem_cons_self)
          have released := ih binds typed (situated.enter _)
            (fun edge member => inGraph (List.mem_append_left _ member))
            (fun scope member => entered scope (List.mem_cons_of_mem _ member)) inside'
          have behind := inside.situated binds typed (situated.enter _) continues
          rw [if_pos continues, outsideLoop_block situated.names] at released
          refine .blockEnd _ released ?_
          have destroyed := exit_bindings scheduled guards
            (inGraph (List.mem_append_right _ (List.mem_singleton.mpr rfl))) behind inside'
            (List.singleton_append).symm
          rw [destroyed, behind.names, situated.names]
          simp [growInnermost, frameNames, liveBindings]
  | blockExit note inside ends ih =>
      cases binds with
      | scope _ _ binds =>
          have released := ih binds typed (situated.enter _) inGraph
            (fun scope member => entered scope (List.mem_cons_of_mem _ member))
            (covers_enter covers (entered _ List.mem_cons_self))
          rw [if_neg (by simp [ends]), outsideLoop_block situated.names] at released
          exact .blockExit _ _ released
  | nil =>
      cases binds
      exact .nil ..
  | next before goesOn behind beforeIH behindIH =>
      cases binds with
      | cons here later =>
          have typedHere (id : Int) (above : _ ≤ id) (below : id < _) :=
            typed id above (Int.lt_of_lt_of_le below later.next_le)
          rw [growInnermost_append] at covers
          have first := beforeIH here typedHere situated
            (fun edge member => inGraph (List.mem_append_left _ member))
            (fun scope member => entered scope (List.mem_append_left _ member)) covers.shrink
          have rest := behindIH later
            (fun id above below => typed id (Int.le_trans here.next_le above) below)
            (before.situated here typedHere situated goesOn)
            (fun edge member => inGraph (List.mem_append_right _ member))
            (fun scope member => entered scope (List.mem_append_right _ member)) covers
          rw [if_pos goesOn] at first
          exact .next first rest
  | stop statements before ends ih =>
      cases binds with
      | cons here later =>
          have released := ih here
            (fun id above below => typed id above (Int.lt_of_lt_of_le below later.next_le))
            situated inGraph entered covers
          rw [if_neg (by simp [ends])] at released ⊢
          exact .stop _ released

end Walks
end LifecycleHooks

import LifecycleHooks.Proofs.Scope.Walk

/-!
# Frames and names

While a body whose names are bound is walked over, the locals in the frames are the names
that can be seen there, so that a `return` of a name finds the local it stands for.
-/

namespace LifecycleHooks

/-- The names that the frames bind, the latest first. -/
def frameNames (frames : List Frame) : Names :=
  frames.flatMap fun frame =>
    (frame.locals.map fun declared => (declared.name, declared.binding)).reverse

@[simp]
theorem frameNames_nil : frameNames [] = [] :=
  rfl

theorem frameNames_append (first second : List Frame) :
    frameNames (first ++ second) = frameNames first ++ frameNames second :=
  List.flatMap_append

/-- A scope that has declared more locals. -/
def growInnermost (more : List Local) : List Frame → List Frame
  | [] => []
  | scope :: outer => { scope with locals := scope.locals ++ more } :: outer

@[simp]
theorem growInnermost_nil (frames : List Frame) : growInnermost [] frames = frames := by
  cases frames <;> simp [growInnermost]

theorem growInnermost_append (first second : List Local) (frames : List Frame) :
    growInnermost (first ++ second) frames = growInnermost second (growInnermost first frames) := by
  cases frames <;> simp [growInnermost]

/-- The frames in which code is walked over bind the names that can be seen there, but for
those around the procedure, each local with the type of its binding. -/
structure Situated (types : BindingTypes) (isLocal : BindingId → Prop) (outside : Names)
    (frames : List Frame) (next : NextIds) (first : BindingId) (visible : Names) : Prop where
  names : visible = frameNames frames ++ outside
  locals : ∀ frame ∈ frames, ∀ declared ∈ frame.locals,
    isLocal declared.binding ∧ types.lookup declared.binding = some declared.type
  distinct : (frames.map Frame.scope).Nodup
  before : ∀ frame ∈ frames, frame.scope < next.scope
  descending : Descending first visible

namespace Situated

variable {types : BindingTypes} {isLocal : BindingId → Prop} {outside : Names} {frames : List Frame} {next : NextIds}
  {first : BindingId} {visible : Names}

theorem later {after : NextIds} {last : BindingId}
    (situated : Situated types isLocal outside frames next first visible)
    (scopes : next.scope ≤ after.scope) (bindings : first ≤ last) :
    Situated types isLocal outside frames after last visible :=
  { situated with
    before := fun frame member => Int.lt_of_lt_of_le (situated.before frame member) scopes
    descending := situated.descending.later bindings }

/-- A block that is entered has a frame of its own, which binds nothing yet. -/
theorem enter (isLoopBody : Bool) (situated : Situated types isLocal outside frames next first visible) :
    Situated types isLocal outside (⟨next.scope, isLoopBody, []⟩ :: frames)
      { next with scope := next.scope + 1 } first visible where
  names := situated.names
  locals frame member declared inside := by
    rcases List.mem_cons.mp member with rfl | outer
    · simp at inside
    · exact situated.locals frame outer declared inside
  distinct := by
    refine List.nodup_cons.mpr ⟨fun member => ?_, situated.distinct⟩
    obtain ⟨frame, inside, same⟩ := List.mem_map.mp member
    have earlier := situated.before frame inside
    rw [same] at earlier
    exact Int.lt_irrefl _ earlier
  before frame member := by
    rcases List.mem_cons.mp member with rfl | outer
    · exact Int.lt_add_one_of_le (Int.le_refl _)
    · exact Int.lt_add_one_of_le (Int.le_of_lt (situated.before frame outer))
  descending := situated.descending

/-- A declared local is bound in the innermost frame. -/
theorem declare {scope : Frame} {outer : List Frame} {declared : Local}
    (situated : Situated types isLocal outside (scope :: outer) next first visible)
    (known : isLocal declared.binding ∧ types.lookup declared.binding = some declared.type)
    {after : BindingId}
    (descending : Descending after ((declared.name, declared.binding) :: visible)) :
    Situated types isLocal outside (growInnermost [declared] (scope :: outer)) next after
      ((declared.name, declared.binding) :: visible) where
  names := by
    rw [situated.names]
    simp [frameNames, growInnermost]
  locals frame member other inside := by
    rcases List.mem_cons.mp member with rfl | around
    · rcases List.mem_append.mp inside with before | new
      · exact situated.locals scope List.mem_cons_self other before
      · obtain rfl := List.mem_singleton.mp new
        exact known
    · exact situated.locals frame (List.mem_cons_of_mem _ around) other inside
  distinct := situated.distinct
  before frame member := by
    rcases List.mem_cons.mp member with rfl | around
    · exact situated.before scope List.mem_cons_self
    · exact situated.before frame (List.mem_cons_of_mem _ around)
  descending := descending

end Situated

/-- A declaration whose binding has a type declares one local. -/
theorem Walk.ofDeclaration_typed {types : BindingTypes} {id : BindingId} {found : TypeId}
    (known : types.lookup id = some found) (next : NextIds) (order : Nat) (note : Note)
    (name : String) (type : Option TypeId) :
    Walk.ofDeclaration types next order note name type (some id) =
      { locals := [⟨id, name, found, order, note.id, note.span⟩], next := next } := by
  simp [ofDeclaration, localType, known]

/-- A block declares nothing in the scope around it. -/
theorem Walks.block_locals {context : WalkContext} {frames : List Frame} {next : NextIds}
    {isLoopBody : Bool} {block : Block} {walk : Walk}
    (walks : Walks context frames next (.block isLoopBody block) walk) : walk.locals = [] := by
  cases walks <;> rfl

/-- Behind a fragment the frames have grown by the locals that it declares. -/
theorem Walks.situated {context : WalkContext} {isLocal : BindingId → Prop} {outside : Names} {frames : List Frame}
    {next : NextIds} {fragment : Fragment} {walk : Walk} {inLoop : Bool}
    {first after : BindingId} {visible seen : Names}
    (walks : Walks context frames next fragment walk)
    (binds : Binds inLoop first visible fragment after seen)
    (typed : ∀ id : Int, first ≤ id → id < after →
      isLocal id ∧ (context.bindingTypes.lookup id).isSome)
    (situated : Situated context.bindingTypes isLocal outside frames next first visible)
    (continues : walk.continues = true) :
    Situated context.bindingTypes isLocal outside (growInnermost walk.locals frames) walk.next after
      seen := by
  induction walks generalizing inLoop first after visible seen with
  | declare scope outer next note name value type mutability binding =>
      have descending := binds.descending situated.descending
      cases binds with
      | declare =>
          obtain ⟨isLocal, hasType⟩ :=
            typed first (Int.le_refl _) (Int.lt_add_one_of_le (Int.le_refl _))
          obtain ⟨found, known⟩ := Option.isSome_iff_exists.mp hasType
          rw [Walk.ofDeclaration_typed known]
          exact situated.declare ⟨isLocal, known⟩ descending
  | assign =>
      cases binds
      simpa using situated
  | expr =>
      cases binds
      simpa using situated
  | spawn =>
      cases binds
      simpa using situated
  | «return» => cases continues
  | «break» => cases continues
  | «continue» => cases continues
  | block inside ih =>
      cases binds with
      | block binds => exact ih binds typed situated continues
  | branch note condition inside ih =>
      cases binds with
      | branch _ _ binds =>
          obtain rfl := binds.seen_of_block
          rw [inside.block_locals, growInnermost_nil]
          exact situated.later inside.numbers.scopes.bounds binds.next_le
  | branchElse note condition ifYes ifNo yesIH noIH =>
      cases binds with
      | branchElse _ _ yes no =>
          obtain rfl := no.seen_of_block
          obtain rfl := yes.seen_of_block
          rw [growInnermost_nil]
          exact situated.later (Int.le_trans ifYes.numbers.scopes.bounds ifNo.numbers.scopes.bounds)
            (Int.le_trans yes.next_le no.next_le)
  | loop note condition inside ih =>
      cases binds with
      | loop _ _ _ binds =>
          obtain rfl := binds.seen_of_block
          rw [inside.block_locals, growInnermost_nil]
          exact situated.later inside.numbers.scopes.bounds binds.next_le
  | blockEnd note inside continues ih =>
      cases binds with
      | scope _ _ binds =>
          rw [growInnermost_nil]
          refine situated.later ?_ binds.next_le
          exact Int.le_trans (Int.le_add_one (Int.le_refl _)) inside.numbers.scopes.bounds
  | blockExit note inside ends ih => cases continues
  | nil =>
      cases binds
      simpa using situated
  | next before goesOn behind beforeIH behindIH =>
      cases binds with
      | cons here later =>
          rw [growInnermost_append]
          refine behindIH later (fun id above below => ?_) (beforeIH here (fun id above below => ?_)
            situated goesOn) continues
          · exact typed id (Int.le_trans here.next_le above) below
          · exact typed id above (Int.lt_of_lt_of_le below later.next_le)
  | stop statements before ends ih => cases ends.symm.trans continues

theorem mem_frameNames {frames : List Frame} {name : String} {binding : BindingId} :
    (name, binding) ∈ frameNames frames ↔
      ∃ frame ∈ frames, ∃ declared ∈ frame.locals,
        declared.name = name ∧ declared.binding = binding := by
  simp [frameNames]

theorem Frame.findLocal_mem {frame : Frame} {name : String} {binding : Option BindingId}
    {declared : Local} (found : frame.findLocal name binding = some declared) :
    declared ∈ frame.locals ∧ match binding with
      | some id => declared.binding = id
      | none => declared.name = name := by
  refine ⟨List.mem_reverse.mp (List.mem_of_find?_eq_some found), ?_⟩
  have chosen := List.find?_some found
  cases binding <;> simpa using chosen

theorem returned_visible {visible : Names} {value : Option Expr} {binding : BindingId}
    (named : ReturnsVisible visible value) (returned : returned? value = some binding) :
    binding ∈ visible.map Prod.snd := by
  unfold returned? at returned
  split at returned
  · subst returned
    obtain ⟨before, behind, names, -⟩ := List.lookup_eq_some_iff.mp named.symm
    simp [names]
  · cases returned

/-- A `return` hands over the local whose binding it names, if that is in a frame. -/
theorem mem_consumedBy {outside visible : Names} {frames : List Frame} {value : Option Expr}
    (names : visible = frameNames frames ++ outside) (named : ReturnsVisible visible value)
    (binding : BindingId) :
    binding ∈ Walk.consumedBy frames value ↔
      returned? value = some binding ∧ binding ∈ (frameNames frames).map Prod.snd := by
  rcases value with - | ⟨note, name, id⟩ | - | - | - | -
  · simp [Walk.consumedBy, returned?]
  · cases id with
    | some id =>
        cases found : frames.findSome? (·.findLocal name (some id)) with
        | none =>
            have absent : id ∉ (frameNames frames).map Prod.snd := by
              intro bound
              obtain ⟨⟨other, _⟩, member, rfl⟩ := List.mem_map.mp bound
              obtain ⟨frame, inside, declared, isLocal, -, same⟩ := mem_frameNames.mp member
              have missing := List.findSome?_eq_none_iff.mp found frame inside
              have differ := List.find?_eq_none.mp missing declared (List.mem_reverse.mpr isLocal)
              simp [same] at differ
            simp only [Walk.consumedBy, found, returned?, Option.toList_none, List.map_nil,
              List.not_mem_nil, Option.some.injEq, false_iff, not_and]
            rintro rfl
            exact absent
        | some declared =>
            obtain ⟨frame, inside, here⟩ := List.exists_of_findSome?_eq_some found
            obtain ⟨isLocal, same⟩ := Frame.findLocal_mem here
            have bound : id ∈ (frameNames frames).map Prod.snd :=
              List.mem_map.mpr ⟨(declared.name, id),
                mem_frameNames.mpr ⟨frame, inside, declared, isLocal, rfl, same⟩, rfl⟩
            simp only [Walk.consumedBy, found, returned?, Option.toList_some, List.map_cons,
              List.map_nil, List.mem_singleton, Option.some.injEq]
            constructor
            · rintro rfl
              exact ⟨same.symm, same ▸ bound⟩
            · rintro ⟨rfl, -⟩
              exact same.symm
    | none =>
        have unbound : frames.findSome? (·.findLocal name none) = none := by
          refine List.findSome?_eq_none_iff.mpr fun frame member => ?_
          cases found : frame.findLocal name none with
          | none => rfl
          | some declared =>
              obtain ⟨isLocal, same⟩ := Frame.findLocal_mem found
              have bound : (name, declared.binding) ∈ visible := by
                rw [names]
                exact List.mem_append_left _
                  (mem_frameNames.mpr ⟨frame, member, declared, isLocal, same, rfl⟩)
              have unseen := List.lookup_eq_none_iff.mp named.symm _ bound
              simp at unseen
        simp [Walk.consumedBy, returned?, unbound]
  all_goals simp [Walk.consumedBy, returned?]

end LifecycleHooks

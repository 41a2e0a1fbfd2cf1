import LifecycleHooks.Proofs.Lifting.CopyRecursion
import LifecycleHooks.Proofs.Lifting.PathOrder

/-!
# Copies of all storage

A copy plan is read as the list of what it does, in the order of the places.  However often
its references back are replaced by the copy plans that they stand for, it copies each
storage that can be shared, at the path along which a deep copy reaches it, exactly once.
What is not copied yet lies behind a reference that is left.
-/

namespace LifecycleHooks

open Attempt ResolveM Resolver

/-- What a copy plan does at one place. -/
inductive CopyStop where
  /-- A hook is called. -/
  | hook (call : HookCall)
  /-- Fresh storage is allocated. -/
  | clone (place : String) (type : TypeId)
  /-- The copy of an enclosing type is used again. -/
  | recursive (place : String) (type : TypeId)

/-- Whether a copy is made on the spot. -/
def CopyStop.isMade : CopyStop → Prop
  | .hook _ | .clone .. => True
  | .recursive .. => False

/-- The type that a reference back leads to. -/
def CopyStop.backTo? : CopyStop → Option TypeId
  | .recursive _ type => some type
  | .hook _ | .clone .. => none

mutual

/-- What a part of a copy plan does, in order. -/
def CopyNode.stops : CopyNode → List CopyStop
  | .hook call => [.hook call]
  | .clone place type children => .clone place type :: copyStops children
  | .recursive place type => [.recursive place type]

/-- What a copy plan does, in order. -/
def copyStops : List CopyNode → List CopyStop
  | [] => []
  | node :: rest => node.stops ++ copyStops rest

end

@[simp]
theorem copyStops_nil : copyStops [] = [] := by
  rw [copyStops]

@[simp]
theorem copyStops_cons (node : CopyNode) (rest : List CopyNode) :
    copyStops (node :: rest) = node.stops ++ copyStops rest := by
  rw [copyStops]

@[simp]
theorem copyStops_append (nodes others : List CopyNode) :
    copyStops (nodes ++ others) = copyStops nodes ++ copyStops others := by
  induction nodes with
  | nil => simp
  | cons node nodes ih => simp [ih]

@[simp]
theorem CopyNode.stops_hook (call : HookCall) : (CopyNode.hook call).stops = [.hook call] := by
  rw [CopyNode.stops]

@[simp]
theorem CopyNode.stops_clone (place : String) (type : TypeId) (children : List CopyNode) :
    (CopyNode.clone place type children).stops = .clone place type :: copyStops children := by
  rw [CopyNode.stops]

@[simp]
theorem CopyNode.stops_recursive (place : String) (type : TypeId) :
    (CopyNode.recursive place type).stops = [.recursive place type] := by
  rw [CopyNode.stops]

namespace Resolver

section Paths

variable (hooks : Registry) (resolver : Resolver)

/-- A type with a finite structure and without a hook for its deep copy, which therefore
goes on to its constituents. -/
structure Crossed (id : TypeId) : Prop where
  resolvable : resolver.Resolvable id
  unhooked : ∀ entry, ¬ resolver.table.Overridden hooks .deepCopy id entry

/-- What is done at the end of a path of a deep copy: a hook is called, storage that can be
shared is allocated, or the copy of a type stands for all that follows. -/
inductive CopiedAt : TypeId → (place : String) → (path : List Nat) → CopyStop → Prop where
  | hook {id : TypeId} {place : String} {entry : HookEntry} (resolvable : resolver.Resolvable id)
      (hook : resolver.table.Overridden hooks .deepCopy id entry) :
      CopiedAt id place [] (.hook ⟨place, id, entry⟩)
  | clone {id : TypeId} {place : String} {type : TypeDef} (crossed : Crossed hooks resolver id)
      (isType : resolver.table.get? id = some type) (shared : type.isSharedStorage = true) :
      CopiedAt id place [] (.clone place id)
  | recursive {id : TypeId} {place : String} : CopiedAt id place [] (.recursive place id)
  | step {id : TypeId} {place : String} {slots : List Slot} {turn : Nat} {branch : Branch} {turns : List Nat}
      {stop : CopyStop} (crossed : Crossed hooks resolver id)
      (parts : relevantSlots id .deepCopy resolver = .ok slots resolver)
      (taken : (slots.flatMap (Slot.branches resolver.table place))[turn]? = some branch)
      (rest : CopiedAt branch.type branch.place turns stop) : CopiedAt id place (turn :: turns) stop

/-- What is done at the end of a path that starts with the choice of a value. -/
abbrev CopiedBehind : (branches : List Branch) → (path : List Nat) → CopyStop → Prop :=
  StandsAmong (fun branch => CopiedAt hooks resolver branch.type branch.place) fun _ stop => stop

/-- What is done at a value, and the values that the deep copy goes on to. -/
inductive CopyLevel (id : TypeId) (place : String) : List CopyStop → List Branch → Prop where
  | endless (notResolvable : ¬ resolver.Resolvable id) : CopyLevel id place [] []
  | hooked {entry : HookEntry} (resolvable : resolver.Resolvable id)
      (hook : resolver.table.Overridden hooks .deepCopy id entry) :
      CopyLevel id place [.hook ⟨place, id, entry⟩] []
  | crossed {type : TypeDef} {slots : List Slot} (crossed : Crossed hooks resolver id)
      (isType : resolver.table.get? id = some type)
      (parts : relevantSlots id .deepCopy resolver = .ok slots resolver) :
      CopyLevel id place (if type.isSharedStorage then [.clone place id] else [])
        (slots.flatMap (Slot.branches resolver.table place))

end Paths

section Listing

variable {hooks : Registry} {resolver : Resolver} {id : TypeId} {place : String}

theorem Overridden.unique {kind : OpKind} {entry other : HookEntry}
    (hook : resolver.table.Overridden hooks kind id entry)
    (otherwise : resolver.table.Overridden hooks kind id other) : entry = other := by
  have same := (TypeTable.governingHook?_eq_ok_some.mpr hook).symm.trans
    (TypeTable.governingHook?_eq_ok_some.mpr otherwise)
  exact Option.some.inj (Except.ok.inj same)

theorem CopyLevel.made {own : List CopyStop} {branches : List Branch}
    (level : CopyLevel hooks resolver id place own branches) : ∀ stop ∈ own, stop.isMade := by
  intro stop member
  cases level with
  | endless => cases member
  | hooked =>
      obtain rfl := List.mem_singleton.mp member
      trivial
  | crossed =>
      split at member
      · obtain rfl := List.mem_singleton.mp member
        trivial
      · cases member

/-- A value lists what is done there and what is done behind it. -/
theorem lists_level {own : List CopyStop} {branches : List Branch} {least : Nat}
    {marked : List (List Nat × CopyStop)} (level : CopyLevel hooks resolver id place own branches)
    (lists : Lists CopyStop.isMade (CopiedBehind hooks resolver branches) least marked) :
    Lists CopyStop.isMade (CopiedAt hooks resolver id place) least
      (own.map (fun stop => ([], stop)) ++ marked) := by
  refine lists_here ?few ?found ?here ?onwards ?only lists
  case few =>
    cases level with
    | crossed => split <;> simp
    | _ => simp
  case found => exact level.made
  case here =>
    intro stop member
    cases level with
    | endless => cases member
    | hooked resolvable hook =>
        obtain rfl := List.mem_singleton.mp member
        exact .hook resolvable hook
    | crossed crossed isType parts =>
        split at member
        · rename_i shared
          obtain rfl := List.mem_singleton.mp member
          exact .clone crossed isType shared
        · cases member
  case onwards =>
    intro path stop standing
    cases standing with
    | taken taken standing =>
        refine ⟨List.cons_ne_nil _ _, ?_⟩
        cases level with
        | crossed crossed isType parts => exact .step crossed parts taken standing
        | _ => cases taken
  case only =>
    intro path stop made stands
    cases stands with
    | hook resolvable hook =>
        left
        cases level with
        | endless notResolvable => exact absurd resolvable notResolvable
        | hooked _ otherwise =>
            obtain rfl := Overridden.unique hook otherwise
            simp
        | crossed crossed => exact absurd hook (crossed.unhooked _)
    | clone crossed isType shared =>
        left
        cases level with
        | endless notResolvable => exact absurd crossed.resolvable notResolvable
        | hooked _ hook => exact absurd hook (crossed.unhooked _)
        | crossed _ isType' =>
            obtain rfl := Option.some.inj (isType.symm.trans isType')
            simp [shared]
    | recursive => cases made
    | step crossed parts taken rest =>
        cases level with
        | endless notResolvable => exact absurd crossed.resolvable notResolvable
        | hooked _ hook => exact absurd hook (crossed.unhooked _)
        | crossed _ _ parts' =>
            obtain ⟨rfl, _⟩ := EStateM.Result.ok.inj (parts.symm.trans parts')
            exact .inr (.taken taken rest)

/-- Nothing is copied behind a type from which no storage that can be shared is reached. -/
theorem Storeless.nothing_copied (storeless : resolver.Storeless id) {path : List Nat} {stop : CopyStop}
    (made : stop.isMade) : ¬ CopiedAt hooks resolver id place path stop := by
  obtain ⟨region, member, bare⟩ := storeless
  intro copied
  induction copied with
  | hook resolvable hook =>
      cases bare _ member with
      | held held => exact held.not_resolvable resolvable
      | clear clear isType alone =>
          cases hook with
          | value isValue => exact isValue rfl
          | @copied wrapper inner _ isWrap indirect =>
              obtain rfl := Option.some.inj (isType.symm.trans isWrap)
              cases wrapper with
              | ref => cases alone
              | ptr => cases alone
              | _ => cases indirect
  | clone crossed isType shared =>
      cases bare _ member with
      | held held => exact held.not_resolvable crossed.resolvable
      | clear clear isType' alone =>
          obtain rfl := Option.some.inj (isType.symm.trans isType')
          cases alone.symm.trans shared
  | recursive => exact made
  | step crossed parts taken _ ih =>
      cases bare _ member with
      | held held => exact held.not_resolvable crossed.resolvable
      | clear clear isType alone all inside =>
          obtain ⟨slot, isSlot, isBranch⟩ := List.mem_flatMap.mp (List.mem_of_getElem? taken)
          have inRegion := inside slot (constituents_of_relevantSlots all parts isSlot)
          rw [← Slot.type_of_mem_branches isBranch] at inRegion
          exact ih made inRegion

theorem Storeless.lists (storeless : resolver.Storeless id) (least : Nat) :
    Lists CopyStop.isMade (CopiedAt hooks resolver id place) least [] :=
  lists_none least fun _ _ made => storeless.nothing_copied made

end Listing

/-- What is done about values, as far as so many levels of the deep copy, before references
back stand for the rest. -/
inductive Covers (hooks : Registry) (resolver : Resolver) : (levels : Nat) → List Branch → List CopyStop → Prop where
  | done {levels : Nat} : Covers hooks resolver levels [] []
  | bare {levels : Nat} {branch : Branch} {rest : List Branch} {stops : List CopyStop}
      (storeless : resolver.Storeless branch.type) (others : Covers hooks resolver levels rest stops) :
      Covers hooks resolver levels (branch :: rest) stops
  | deferred {branch : Branch} {rest : List Branch} {stops : List CopyStop}
      (others : Covers hooks resolver 0 rest stops) :
      Covers hooks resolver 0 (branch :: rest) (.recursive branch.place branch.type :: stops)
  | opened {levels : Nat} {branch : Branch} {rest inner : List Branch} {own innerStops stops : List CopyStop}
      (level : CopyLevel hooks resolver branch.type branch.place own inner)
      (insides : Covers hooks resolver (levels - 1) inner innerStops)
      (others : Covers hooks resolver levels rest stops) :
      Covers hooks resolver levels (branch :: rest) (own ++ innerStops ++ stops)

section Covering

variable {hooks : Registry} {resolver : Resolver} {id : TypeId} {place : String}

theorem Covers.lists {levels : Nat} {branches : List Branch} {stops : List CopyStop}
    (covers : Covers hooks resolver levels branches stops) :
    ∃ marked, marked.map Prod.snd = stops ∧
      Lists CopyStop.isMade (CopiedBehind hooks resolver branches) (levels + 1) marked := by
  have kept (stop : CopyStop) : stop.isMade ↔ stop.isMade := .rfl
  induction covers with
  | done => exact ⟨[], rfl, lists_nil _⟩
  | @bare levels _ _ _ storeless _ ih =>
      obtain ⟨others, rfl, behind⟩ := ih
      exact ⟨_, by simp, lists_cons kept (storeless.lists levels) behind⟩
  | deferred _ ih =>
      obtain ⟨others, rfl, behind⟩ := ih
      exact ⟨_, by simp, lists_cons kept (lists_cut .recursive fun made => made) behind⟩
  | @opened levels branch rest inner own innerStops stops level _ _ insideIh othersIh =>
      obtain ⟨insides, rfl, below⟩ := insideIh
      obtain ⟨others, rfl, behind⟩ := othersIh
      have here := (lists_level level below).mono (by omega : levels ≤ levels - 1 + 1)
      exact ⟨_, by simp [Function.comp_def], lists_cons kept here behind⟩

theorem Covers.mono {levels fewer : Nat} {branches : List Branch} {stops : List CopyStop}
    (covers : Covers hooks resolver levels branches stops) (few : fewer ≤ levels) :
    Covers hooks resolver fewer branches stops := by
  induction covers generalizing fewer with
  | done => exact .done
  | bare storeless _ ih => exact .bare storeless (ih few)
  | deferred _ ih =>
      obtain rfl := Nat.le_zero.mp few
      exact .deferred (ih le_rfl)
  | opened level _ _ insideIh othersIh =>
      exact .opened level (insideIh (Nat.sub_le_sub_right few 1)) (othersIh few)

/-- What is done about one value. -/
theorem Covers.lists_single {levels : Nat} {stops : List CopyStop}
    (covers : Covers hooks resolver (levels + 1) [{ type := id, place := place }] stops) :
    ∃ marked, marked.map Prod.snd = stops ∧
      Lists CopyStop.isMade (CopiedAt hooks resolver id place) (levels + 1) marked := by
  cases covers with
  | bare storeless others =>
      cases others
      exact ⟨[], rfl, storeless.lists _⟩
  | opened level insides others =>
      cases others
      obtain ⟨marked, rfl, lists⟩ := insides.lists
      exact ⟨_, by simp [Function.comp_def], lists_level level lists⟩

/-- A type whose deep copy was resolved, but to no hook, has none. -/
theorem Ready.crossed {outcome : Outcome} (ready : resolver.Ready hooks) (clear : resolver.Clear id)
    (kept : resolver.operations.lookup (id, .deepCopy) = some outcome)
    (unbound : ∀ entry, outcome ≠ .overridden entry) : Crossed hooks resolver id where
  resolvable := clear.resolvable
  unhooked entry hook := by
    have governs := TypeTable.governingHook?_eq_ok_some.mpr hook
    cases ready.explained id .deepCopy outcome kept with
    | builtIn unhooked => exact unhooked.no_clear_path ready (.overridden clear hook)
    | overridden => exact unbound _ rfl
    | lifted _ unhooked => cases governs.symm.trans unhooked

/-- A copy plan covers the deep copy at least one level deep. -/
theorem Copied.covers {active : List TypeId} {branches : List Branch} {nodes : List CopyNode}
    (ready : resolver.Ready hooks) (copied : Copied resolver active branches nodes) {levels : Nat}
    (few : levels ≤ 1) (outermost : levels = 1 → active = []) :
    Covers hooks resolver levels branches (copyStops nodes) := by
  induction copied generalizing levels with
  | done =>
      rw [copyStops_nil]
      exact .done
  | held held _ ih => exact .opened (.endless held.not_resolvable) .done (ih few outermost)
  | hooked kept _ ih =>
      cases ready.explained _ _ _ kept with
      | overridden clear hook =>
          rw [copyStops_cons, CopyNode.stops_hook]
          exact .opened (.hooked clear.resolvable hook) .done (ih few outermost)
  | @again _ _ _ _ _ owns kept unbound isOpen bare _ ih =>
      rw [copyStops_append]
      cases owns with
      | false => exact .bare (bare rfl) (ih few outermost)
      | true =>
          obtain rfl : levels = 0 := by
            by_contra positive
            rw [outermost (by omega)] at isOpen
            cases isOpen
          exact .deferred (ih few outermost)
  | @opened _ branch _ _ inner _ type slots kept unbound clear new isType parts _ _ insideIh othersIh =>
      have level : CopyLevel hooks resolver branch.type branch.place _ _ :=
        .crossed (ready.crossed clear kept unbound) isType parts
      have opened := Covers.opened level (insideIh (by omega) (by omega)) (othersIh few outermost)
      rw [copyStops_append]
      cases shared : type.isSharedStorage <;> simpa [shared] using opened

theorem Crossed.spared (crossed : Crossed hooks resolver id) : resolver.Spared id := by
  obtain ⟨fuel, final, run⟩ := crossed.resolvable
  have persists := ((persists_leadsQueries hooks).unresolvable fuel id).of_ok run
  exact ⟨final, persists, ((isUnresolvable_consults fuel id).of_ok run).table, (clear_of_answer run).judged⟩

/-- The references back that are left are those to types of the set. -/
theorem Covers.within {levels : Nat} {branches : List Branch} {stops : List CopyStop} {trees : Set TypeTree}
    (covers : Covers hooks resolver levels branches stops) (confined : resolver.Confined trees)
    (within : ∀ branch ∈ branches, resolver.table.Within trees branch.type) :
    ∀ place type, .recursive place type ∈ stops → resolver.table.Within trees type := by
  induction covers with
  | done => simp
  | bare _ _ ih => exact ih (List.forall_mem_cons.mp within).2
  | deferred _ ih =>
      obtain ⟨first, others⟩ := List.forall_mem_cons.mp within
      intro place type member
      cases List.mem_cons.mp member with
      | inl same =>
          cases same
          exact first
      | inr behind => exact ih others place type behind
  | @opened levels branch rest inner own innerStops stops level _ _ insideIh othersIh =>
      obtain ⟨first, others⟩ := List.forall_mem_cons.mp within
      have below : ∀ part ∈ inner, resolver.table.Within trees part.type := by
        cases level with
        | crossed crossed isType parts =>
            have settles : Settles (fun slots later => ∀ slot ∈ slots, later.table.Within trees slot.type)
                (fun _ => relevantSlots branch.type .deepCopy) resolver :=
              relevantSlots_settles confined first crossed.spared
            obtain ⟨_, _, inside, answers⟩ := settles
            obtain ⟨_, same⟩ := answers.exists
            obtain ⟨rfl, rfl⟩ := EStateM.Result.ok.inj (same.symm.trans parts)
            intro part member
            obtain ⟨slot, isSlot, isBranch⟩ := List.mem_flatMap.mp member
            rw [Slot.type_of_mem_branches isBranch]
            exact inside slot isSlot
        | _ => simp
      intro place type member
      rw [List.append_assoc, List.mem_append, List.mem_append] at member
      rcases member with isOwn | isInner | behind
      · exact absurd (level.made _ isOwn) fun made => made
      · exact insideIh below place type isInner
      · exact othersIh others place type behind

/-- A stop that was unfolded: what is made stays, and the copy plan that a reference back
stands for takes its place. -/
inductive Unfolds (resolver : Resolver) : CopyStop → List CopyStop → Prop where
  | made {stop : CopyStop} (made : stop.isMade) : Unfolds resolver stop [stop]
  | recursive {place : String} {type : TypeId} {nodes : List CopyNode}
      (copied : Copied resolver [] [{ type := type, place := place }] nodes) :
      Unfolds resolver (.recursive place type) (copyStops nodes)

theorem flatten_unfolded {stops : List CopyStop} {parts : List (List CopyStop)} (made : ∀ stop ∈ stops, stop.isMade)
    (unfolds : List.Forall₂ (Unfolds resolver) stops parts) : parts.flatten = stops := by
  induction unfolds with
  | nil => rfl
  | cons first _ ih =>
      obtain ⟨isMade, others⟩ := List.forall_mem_cons.mp made
      cases first with
      | made => rw [List.flatten_cons, ih others, List.singleton_append]
      | recursive => exact absurd isMade (fun made => made)

/-- Unfolding covers another level. -/
theorem Covers.unfolded {levels : Nat} {branches : List Branch} {stops : List CopyStop}
    {parts : List (List CopyStop)} (ready : resolver.Ready hooks)
    (covers : Covers hooks resolver levels branches stops)
    (unfolds : List.Forall₂ (Unfolds resolver) stops parts) :
    Covers hooks resolver (levels + 1) branches parts.flatten := by
  induction covers generalizing parts with
  | done =>
      cases unfolds
      exact .done
  | bare storeless _ ih => exact .bare storeless (ih unfolds)
  | @deferred branch rest stops _ ih =>
      cases unfolds with
      | @cons _ _ _ parts first behind =>
          cases first with
          | made made => exact absurd made (fun made => made)
          | @recursive _ _ nodes copied =>
              have below : Covers hooks resolver 1 _ _ := copied.covers ready le_rfl fun _ => rfl
              rw [List.flatten_cons]
              generalize copyStops nodes = unfolded at below
              cases below with
              | bare storeless others =>
                  cases others
                  exact .bare storeless (ih behind)
              | opened level insides others =>
                  cases others
                  rw [List.append_nil]
                  exact .opened level insides (ih behind)
  | @opened levels branch rest inner own innerStops stops level _ _ insideIh othersIh =>
      obtain ⟨here, others, rfl, mine, behind⟩ := forall₂_append_left unfolds
      obtain ⟨first, below, rfl, isOwn, insides⟩ := forall₂_append_left mine
      have goesOn : Covers hooks resolver (levels + 1 - 1) inner below.flatten :=
        (insideIh insides).mono (by omega)
      rw [List.flatten_append, List.flatten_append, flatten_unfolded level.made isOwn]
      exact .opened level goesOn (othersIh behind)

end Covering
end Resolver
end LifecycleHooks

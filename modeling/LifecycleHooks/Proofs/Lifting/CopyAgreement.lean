import LifecycleHooks.Proofs.Lifting.CopyRecursion

/-!
# Copy plans agree with call plans

The copy plan for a value visits every constituent that a deep copy follows, and the call
plan only those behind which a hook is reached.  Both call the same hooks in the same
order, because a constituent that the call plan leaves out leads to no hook, and neither
do the types that are opened for it.  They break off at the same places too: whatever
lies between two openings of a type with a lifted deep copy is lifted itself.
-/

namespace LifecycleHooks

open Attempt ResolveM Resolver

mutual

/-- The calls that a part of a copy plan makes, at any depth.  Where it refers back to a
type with a lifted deep copy, that is called. -/
def CopyNode.calls (lifts : TypeId → Bool) : CopyNode → List CallNode
  | .hook call => [.hook call]
  | .clone _ _ children => copyCalls lifts children
  | .recursive place type => if lifts type then [.lifted place type .deepCopy] else []

/-- The calls that a copy plan makes, at any depth. -/
def copyCalls (lifts : TypeId → Bool) : List CopyNode → List CallNode
  | [] => []
  | node :: rest => node.calls lifts ++ copyCalls lifts rest

end

@[simp]
theorem copyCalls_nil (lifts : TypeId → Bool) : copyCalls lifts [] = [] := by
  rw [copyCalls]

@[simp]
theorem copyCalls_cons (lifts : TypeId → Bool) (node : CopyNode) (rest : List CopyNode) :
    copyCalls lifts (node :: rest) = node.calls lifts ++ copyCalls lifts rest := by
  rw [copyCalls]

@[simp]
theorem copyCalls_append (lifts : TypeId → Bool) (nodes others : List CopyNode) :
    copyCalls lifts (nodes ++ others) = copyCalls lifts nodes ++ copyCalls lifts others := by
  induction nodes with
  | nil => simp
  | cons node nodes ih => simp [ih]

@[simp]
theorem CopyNode.calls_hook (lifts : TypeId → Bool) (call : HookCall) :
    (CopyNode.hook call).calls lifts = [.hook call] := by
  rw [CopyNode.calls]

@[simp]
theorem CopyNode.calls_clone (lifts : TypeId → Bool) (place : String) (type : TypeId) (children : List CopyNode) :
    (CopyNode.clone place type children).calls lifts = copyCalls lifts children := by
  rw [CopyNode.calls]

@[simp]
theorem CopyNode.calls_recursive (lifts : TypeId → Bool) (place : String) (type : TypeId) :
    (CopyNode.recursive place type).calls lifts = if lifts type then [.lifted place type .deepCopy] else [] := by
  rw [CopyNode.calls]

namespace Resolver

section Comparing

variable {hooks : Registry} {resolver : Resolver} {active : List TypeId} {lifts : TypeId → Bool}

/-- The types with a lifted deep copy. -/
def LiftsCopies (hooks : Registry) (resolver : Resolver) (lifts : TypeId → Bool) : Prop :=
  ∀ type, lifts type = true ↔ ∃ steps, resolver.Operates hooks type .deepCopy (.lifted steps)

theorem Operates.eq_kept {kind : OpKind} {id : TypeId} {outcome other : Outcome}
    (operates : resolver.Operates hooks id kind outcome)
    (kept : resolver.operations.lookup (id, kind) = some other) : other = outcome := by
  obtain ⟨fuel, operation, final, run, rfl⟩ := operates
  unfold resolve at run
  split at run
  · cases run
  · rw [bind_run_of_ok (known?_run resolver id kind), kept] at run
    obtain ⟨rfl, rfl⟩ := EStateM.Result.ok.inj run
    rfl

/-- The calls that one value contributes to the call plan for a deep copy. -/
inductive PlannedCopy (hooks : Registry) (resolver : Resolver) (active : List TypeId) (branch : Branch) :
    List CallNode → Prop where
  | builtIn (kept : resolver.operations.lookup (branch.type, .deepCopy) = some .builtIn) :
      PlannedCopy hooks resolver active branch []
  | overridden {entry : HookEntry}
      (kept : resolver.operations.lookup (branch.type, .deepCopy) = some (.overridden entry)) :
      PlannedCopy hooks resolver active branch [.hook ⟨branch.place, branch.type, entry⟩]
  | again {steps : List Slot}
      (kept : resolver.operations.lookup (branch.type, .deepCopy) = some (.lifted steps))
      (isOpen : branch.type ∈ active) :
      PlannedCopy hooks resolver active branch [.lifted branch.place branch.type .deepCopy]
  | opened {steps : List Slot} {inner : List PlannedCall}
      (kept : resolver.operations.lookup (branch.type, .deepCopy) = some (.lifted steps))
      (new : branch.type ∉ active)
      (insides : Planned hooks .deepCopy resolver (branch.type :: active)
        (steps.flatMap (Slot.branches resolver.table branch.place)) inner) :
      PlannedCopy hooks resolver active branch (inner.map PlannedCall.node)

theorem Planned.copied_cons {branch : Branch} {rest : List Branch} {calls : List PlannedCall}
    (planned : Planned hooks .deepCopy resolver active (branch :: rest) calls) :
    ∃ first others, calls.map PlannedCall.node = first ++ others.map PlannedCall.node ∧
      PlannedCopy hooks resolver active branch first ∧
      Planned hooks .deepCopy resolver active rest others := by
  cases planned with
  | again kept recurs isOpen others =>
      obtain ⟨outcome, isKept⟩ := Option.isSome_iff_exists.mp kept
      cases recurs with
      | lifted operates =>
          rw [operates.eq_kept isKept] at isKept
          exact ⟨_, _, rfl, .again isKept isOpen, others⟩
      | chained _ after => cases after
  | @opened _ _ _ inner hookCalls innerCalls calls kept level new insides others =>
      obtain ⟨outcome, isKept⟩ := Option.isSome_iff_exists.mp kept
      refine ⟨hookCalls.map CallNode.hook ++ innerCalls.map PlannedCall.node, calls, ?_, ?_, others⟩
      · simp [PlannedCall.ofHook, Function.comp_def]
      · cases level with
        | builtIn operates =>
            rw [operates.eq_kept isKept] at isKept
            cases insides
            exact .builtIn isKept
        | overridden operates after =>
            rw [operates.eq_kept isKept] at isKept
            cases after
            cases insides
            exact .overridden isKept
        | lifted operates =>
            rw [operates.eq_kept isKept] at isKept
            exact .opened isKept (new (.lifted operates)) insides

/-- Some of the values, without values whose types lead to no hook. -/
inductive Among (hooks : Registry) (resolver : Resolver) : List Branch → List Branch → Prop where
  | done : Among hooks resolver [] []
  | both {branch : Branch} {fewer all : List Branch} (others : Among hooks resolver fewer all) :
      Among hooks resolver (branch :: fewer) (branch :: all)
  | dropped {branch : Branch} {fewer all : List Branch}
      (unhooked : resolver.Unhooked hooks .deepCopy branch.type) (others : Among hooks resolver fewer all) :
      Among hooks resolver fewer (branch :: all)

theorem Among.keep {fewer all : List Branch} (branches : List Branch) (among : Among hooks resolver fewer all) :
    Among hooks resolver (branches ++ fewer) (branches ++ all) := by
  induction branches with
  | nil => exact among
  | cons branch branches ih => exact .both ih

theorem Among.drop {fewer all branches : List Branch}
    (unhooked : ∀ branch ∈ branches, resolver.Unhooked hooks .deepCopy branch.type)
    (among : Among hooks resolver fewer all) : Among hooks resolver fewer (branches ++ all) := by
  induction branches with
  | nil => exact among
  | cons branch branches ih =>
      obtain ⟨first, others⟩ := List.forall_mem_cons.mp unhooked
      exact .dropped first (ih others)

/-- Values of constituents that lead to no hook can be left out. -/
theorem Among.filter {place : String} {slots : List Slot} {takesPart : Slot → Bool}
    (leftOut : ∀ slot ∈ slots, takesPart slot = false → resolver.Unhooked hooks .deepCopy slot.type) :
    Among hooks resolver ((slots.filter takesPart).flatMap (Slot.branches resolver.table place))
      (slots.flatMap (Slot.branches resolver.table place)) := by
  induction slots with
  | nil => exact .done
  | cons slot slots ih =>
      obtain ⟨first, others⟩ := List.forall_mem_cons.mp leftOut
      rw [List.flatMap_cons]
      cases takes : takesPart slot with
      | true =>
          rw [List.filter_cons_of_pos takes, List.flatMap_cons]
          exact (ih others).keep _
      | false =>
          rw [List.filter_cons_of_neg (by simp [takes])]
          refine (ih others).drop fun branch member => ?_
          rw [Slot.type_of_mem_branches member]
          exact first takes

theorem Unhooked.kept_builtIn {kind : OpKind} {id : TypeId} {outcome : Outcome} (ready : resolver.Ready hooks)
    (unhooked : resolver.Unhooked hooks kind id)
    (kept : resolver.operations.lookup (id, kind) = some outcome) : outcome = .builtIn := by
  cases builtIn : outcome.isBuiltIn with
  | true => cases outcome <;> first | rfl | cases builtIn
  | false => exact absurd ((ready.explained id kind outcome kept).hookPath builtIn) (unhooked.no_clear_path ready)

/-- The constituents of a type that leads to no hook lead to none. -/
theorem Unhooked.constituents {kind : OpKind} {id : TypeId} {slots : List Slot} (clear : resolver.Clear id)
    (unhooked : resolver.Unhooked hooks kind id) (parts : relevantSlots id kind resolver = .ok slots resolver) :
    ∀ slot ∈ slots, resolver.Unhooked hooks kind slot.type := by
  obtain ⟨region, member, barren⟩ := unhooked
  intro slot isSlot
  cases barren id member with
  | held held => exact absurd clear.resolvable held.not_resolvable
  | clear _ _ same inside =>
      obtain ⟨rfl, _⟩ := EStateM.Result.ok.inj (parts.symm.trans same)
      exact ⟨region, inside slot isSlot, barren⟩

theorem LiftsCopies.of_kept {id : TypeId} {outcome : Outcome} (lifted : LiftsCopies hooks resolver lifts)
    (kept : resolver.operations.lookup (id, .deepCopy) = some outcome) (notLifted : ∀ steps, outcome ≠ .lifted steps) :
    lifts id = false := by
  cases lifts_ : lifts id with
  | false => rfl
  | true =>
      obtain ⟨steps, operates⟩ := (lifted id).mp lifts_
      exact absurd (operates.eq_kept kept) (notLifted steps)

/-- Nothing is called on values whose types lead to no hook. -/
theorem Copied.calls_unhooked {branches : List Branch} {nodes : List CopyNode} (ready : resolver.Ready hooks)
    (lifted : LiftsCopies hooks resolver lifts) (copied : Copied resolver active branches nodes)
    (unhooked : ∀ branch ∈ branches, resolver.Unhooked hooks .deepCopy branch.type) :
    copyCalls lifts nodes = [] := by
  induction copied with
  | done => exact copyCalls_nil lifts
  | held held others ih => exact ih (List.forall_mem_cons.mp unhooked).2
  | hooked kept others ih =>
      cases (List.forall_mem_cons.mp unhooked).1.kept_builtIn ready kept
  | again kept unbound isOpen bare others ih =>
      obtain ⟨first, behind⟩ := List.forall_mem_cons.mp unhooked
      have notLifted := lifted.of_kept kept (by simp [first.kept_builtIn ready kept])
      rw [copyCalls_append, ih behind]
      split <;> simp [notLifted]
  | opened kept unbound clear new isType parts insides others ihInside ih =>
      obtain ⟨first, behind⟩ := List.forall_mem_cons.mp unhooked
      have nothing := ihInside fun branch member => by
        obtain ⟨slot, isSlot, isBranch⟩ := List.mem_flatMap.mp member
        rw [Slot.type_of_mem_branches isBranch]
        exact first.constituents clear parts slot isSlot
      rw [copyCalls_append, ih behind]
      split <;> simp [nothing]

/-- The steps of a lifted deep copy are the constituents behind which a hook is reached, in
the order in which a copy plan visits them. -/
theorem Ready.steps_of_lifted {id : TypeId} {slots steps : List Slot} (ready : resolver.Ready hooks)
    (parts : relevantSlots id .deepCopy resolver = .ok slots resolver)
    (kept : resolver.operations.lookup (id, .deepCopy) = some (.lifted steps)) :
    ∃ takesPart : Slot → Bool, steps = slots.filter takesPart ∧
      ∀ slot ∈ slots, takesPart slot = false → resolver.Unhooked hooks .deepCopy slot.type := by
  obtain ⟨base, own, rfl, isBase, notBase⟩ := relevantSlots_base_first parts
  cases ready.explained id .deepCopy _ kept with
  | @lifted _ takesPart _ _ same _ _ leftOut =>
      obtain ⟨rfl, _⟩ := EStateM.Result.ok.inj (parts.symm.trans same)
      refine ⟨takesPart, ?_, leftOut⟩
      rw [orderSteps_filter takesPart isBase notBase, List.filter_append]
      rfl

/-- The copy plan calls what the call plan does. -/
theorem Copied.calls_planned {fewer all : List Branch} {nodes : List CopyNode} {calls : List PlannedCall}
    (frozen : hooks.frozen = true) (ready : resolver.Ready hooks) (lifted : LiftsCopies hooks resolver lifts)
    (copied : Copied resolver active all nodes) (among : Among hooks resolver fewer all)
    (planned : Planned hooks .deepCopy resolver active fewer calls) :
    copyCalls lifts nodes = calls.map PlannedCall.node := by
  have nothing {active : List TypeId} {branch : Branch} {nodes : List CopyNode}
      (copied : Copied resolver active [branch] (nodes ++ []))
      (unhooked : resolver.Unhooked hooks .deepCopy branch.type) : copyCalls lifts nodes = [] := by
    rw [List.append_nil] at copied
    exact copied.calls_unhooked ready lifted (List.forall_mem_singleton.mpr unhooked)
  induction copied generalizing fewer calls with
  | done =>
      cases among
      cases planned
      exact copyCalls_nil lifts
  | held held others ih =>
      cases among with
      | dropped unhooked among => exact ih among planned
      | both among =>
          obtain ⟨first, behind, same, contributes, planned⟩ := planned.copied_cons
          rw [ih among planned, same]
          cases contributes with
          | builtIn => rfl
          | overridden kept => cases held.unhooked.kept_builtIn ready kept
          | again kept => cases held.unhooked.kept_builtIn ready kept
          | opened kept => cases held.unhooked.kept_builtIn ready kept
  | hooked kept others ih =>
      cases among with
      | dropped unhooked among => cases unhooked.kept_builtIn ready kept
      | both among =>
          obtain ⟨first, behind, same, contributes, planned⟩ := planned.copied_cons
          rw [copyCalls_cons, ih among planned, same]
          cases contributes with
          | overridden keptToo =>
              obtain rfl := Outcome.overridden.inj (Option.some.inj (kept.symm.trans keptToo))
              rw [CopyNode.calls_hook]
          | builtIn keptToo => cases kept.symm.trans keptToo
          | again keptToo => cases kept.symm.trans keptToo
          | opened keptToo => cases kept.symm.trans keptToo
  | @again _ branch _ _ outcome owns kept unbound isOpen bare others ih =>
      have single := Copied.again kept unbound isOpen bare .done
      cases among with
      | dropped unhooked among => rw [copyCalls_append, ih among planned, nothing single unhooked, List.nil_append]
      | both among =>
          obtain ⟨first, behind, same, contributes, planned⟩ := planned.copied_cons
          rw [copyCalls_append, ih among planned, same]
          cases contributes with
          | builtIn keptToo =>
              obtain rfl := Option.some.inj (kept.symm.trans keptToo)
              rw [nothing single ((ready.explained _ _ _ kept).unhooked rfl)]
          | overridden keptToo => exact absurd (Option.some.inj (kept.symm.trans keptToo)) (unbound _)
          | again keptToo =>
              obtain rfl := Option.some.inj (kept.symm.trans keptToo)
              have lifts_ := (lifted branch.type).mpr ⟨_, operates_of_kept frozen kept⟩
              have path := (ready.explained _ _ _ kept).hookPath rfl
              cases owns with
              | true => simp [lifts_]
              | false => exact absurd path (bare rfl).no_path
          | opened _ new => exact absurd isOpen new
  | opened kept unbound clear new isType parts insides others ihInside ih =>
      have single := Copied.opened kept unbound clear new isType parts insides .done
      cases among with
      | dropped unhooked among => rw [copyCalls_append, ih among planned, nothing single unhooked, List.nil_append]
      | both among =>
          obtain ⟨first, behind, same, contributes, planned⟩ := planned.copied_cons
          rw [copyCalls_append, ih among planned, same]
          cases contributes with
          | builtIn keptToo =>
              obtain rfl := Option.some.inj (kept.symm.trans keptToo)
              rw [nothing single ((ready.explained _ _ _ kept).unhooked rfl)]
          | overridden keptToo => exact absurd (Option.some.inj (kept.symm.trans keptToo)) (unbound _)
          | again _ isOpen => exact absurd isOpen new
          | opened keptToo _ inner =>
              obtain ⟨takesPart, rfl, leftOut⟩ := ready.steps_of_lifted parts keptToo
              have below := ihInside (Among.filter leftOut) inner
              split <;> simp [below]

end Comparing

/-- The calls met in a copy plan are those met in a call plan: the same hooks at the same
places, in the same order, and between them the calls of lifted deep copies where the copy
plan refers back to types whose deep copy is lifted. -/
def SameCalls (hooks : Registry) (resolver : Resolver) (copies : List CopyNode) (plan : List CallNode) : Prop :=
  ∃ lifts, LiftsCopies hooks resolver lifts ∧ copyCalls lifts copies = (plannedCalls plan).map PlannedCall.node

/-- A query is asked, whether or not it is answered. -/
def Asked (hooks : Registry) (resolver later : Resolver) : Prop :=
  ∃ fuel query, later = (Query.ask hooks fuel query).finish resolver

/-- Any queries are asked, one after the other. -/
abbrev AskedOn (hooks : Registry) : Resolver → Resolver → Prop := Relation.ReflTransGen (Asked hooks)

section Agreement

variable {hooks : Registry} {resolver : Resolver} {id : TypeId}

theorem AskedOn.leads {later : Resolver} {relation : Resolver → Resolver → Prop} [IsPreorder Resolver relation]
    (leads : LeadsQueries hooks relation relation) (asked : AskedOn hooks resolver later) :
    relation resolver later := by
  induction asked with
  | refl => exact refl_of relation resolver
  | tail _ asks ih =>
      obtain ⟨fuel, query, rfl⟩ := asks
      have preserves : (query.ask hooks fuel).Preserves relation := query.ask_leads leads fuel
      exact trans_of relation ih (preserves.finish _)

theorem sameCalls_of_runs {fuel more : Nat} {place : String} {before copied start planned final : Resolver}
    {copies : List CopyNode} {plan : List CallNode} (frozen : hooks.frozen = true) (idle : before.Idle)
    (ready : final.Ready hooks) (copy : copyPlan hooks fuel id place before = .ok copies copied)
    (call : expand hooks more id .deepCopy place start = .ok plan planned)
    (afterCopy : copied.Extends final) (afterCall : planned.Extends final) : SameCalls hooks final copies plan := by
  classical
  let lifts (type : TypeId) : Bool := ∃ steps, final.Operates hooks type .deepCopy (.lifted steps)
  have lifted : LiftsCopies hooks final lifts := fun type => decide_eq_true_iff
  have follows := copyWithin_copied idle copy afterCopy
  exact ⟨lifts, lifted, follows.calls_planned frozen ready lifted (.both .done)
    (expandWithin_planned call afterCall)⟩

/-- For a type that reaches finitely many types, the copy plan and the plan for the deep
copy are finished, and the same calls are met in both, whichever is asked for first and
whatever is asked in between. -/
theorem copyPlan_agrees (serving : Serving hooks resolver) (frozen : hooks.frozen = true)
    (has : resolver.table.Has id) (finite : (resolver.reach id).Finite) (place : String) :
    Settles (fun copies middle => ∀ later, AskedOn hooks middle later →
        Settles (fun plan final => SameCalls hooks final copies plan)
          (fun fuel => expand hooks fuel id .deepCopy place) later)
      (fun fuel => copyPlan hooks fuel id place) resolver ∧
    Settles (fun plan middle => ∀ later, AskedOn hooks middle later →
        Settles (fun copies final => SameCalls hooks final copies plan)
          (fun fuel => copyPlan hooks fuel id place) later)
      (fun fuel => expand hooks fuel id .deepCopy place) resolver := by
  have prepared := serving.prepared has
  have lasting := prepared_leadsQueries hooks (resolver.reach id) [id]
  have extending := extends_leadsQueries hooks
  have copying (fuel : Nat) := copyWithin_leads lasting fuel [] id place
  have calling (fuel : Nat) := expandWithin_leads lasting .deepCopy fuel [] id place
  refine ⟨?copyFirst, ?callFirst⟩
  case copyFirst =>
    apply (copyWithin_settles frozen finite prepared List.nodup_nil place).mono
    intro copies middle fuel copy _ later asked
    have laterPrepared := asked.leads lasting ((copying fuel).of_ok copy prepared)
    apply (expandWithin_settles frozen finite laterPrepared List.nodup_nil place).mono
    intro plan final more call _
    have onwards : later.Extends final := (expandWithin_extends more [] id place).of_ok call
    have ready := ((calling more).of_ok call laterPrepared).ready
    exact sameCalls_of_runs frozen prepared.ready.idle ready copy call ((asked.leads extending).trans onwards) (.refl _)
  case callFirst =>
    apply (expandWithin_settles frozen finite prepared List.nodup_nil place).mono
    intro plan middle fuel call _ later asked
    have laterPrepared := asked.leads lasting ((calling fuel).of_ok call prepared)
    apply (copyWithin_settles frozen finite laterPrepared List.nodup_nil place).mono
    intro copies final more copy _
    have onwards : later.Extends final := (copyWithin_leads extending more [] id place).of_ok copy
    have ready := ((copying more).of_ok copy laterPrepared).ready
    exact sameCalls_of_runs frozen laterPrepared.ready.idle ready copy call (.refl _) ((asked.leads extending).trans onwards)

/-- Chains of nodes, each of which holds a tagged item. -/
def chainTable : TypeTable :=
  TypeTable.after {} [.object "Node" [] {}, .object "Item" [] {}, .object "Tag" [] {}, .wrap .ref 1, .wrap .ref 2,
    .wrap .seq 3, .define 1 { fields := [⟨"next", 4⟩, ⟨"tags", 6⟩, ⟨"item", 5⟩] }]

/-- The hook that copies an item behind a reference. -/
def chainHooks : Registry where
  entries := [{ kind := .deepCopy, target := 2, params := [], result := 5, impl := "clone", indirection := some .ref }]
  frozen := true

theorem chainTable_built : chainTable.Built :=
  TypeTable.Built.empty.after (by decide +kernel)

theorem copyPlan_agrees_chain :
    (reach { table := chainTable } 1).Finite ∧
      Settles (fun copies middle => ∀ later, AskedOn chainHooks middle later →
          Settles (fun plan final => SameCalls chainHooks final copies plan)
            (fun fuel => expand chainHooks fuel 1 .deepCopy "root") later)
        (fun fuel => copyPlan chainHooks fuel 1 "root") { table := chainTable } := by
  have serving : Serving chainHooks { table := chainTable } := .start chainTable_built
  have closed : leadsToEachOther chainTable [1, 2, 3, 4, 5, 6] = true := by decide +kernel
  have finite := finite_reach serving.intact List.mem_cons_self closed
  have isNode : (chainTable.get? 1).isSome = true := by decide +kernel
  exact ⟨finite, (copyPlan_agrees serving rfl isNode finite "root").1⟩

example : ((copyPlan chainHooks 9 1 "root").result? { table := chainTable }).map copyLines =
    some ["clone(root.next)", "recursive clone(root.next[])", "clone(root.tags)", "=deepCopy(root.item)"] := by
  decide +kernel

example : ((expand chainHooks 9 1 .deepCopy "root").result? { table := chainTable }).map callLines =
    some ["lifted =deepCopy(root.next[])", "=deepCopy(root.item)"] := by
  decide +kernel

end Agreement

end Resolver
end LifecycleHooks

import LifecycleHooks.Proofs.Lifting.CallOrder

/-!
# Unfolding plans

Each call of a lifted operation in a plan stands for the plan of that operation.  However
often all of them are replaced, the hooks called are those of the plain recursion, in its
order, and what is not listed yet lies behind a call that is left.  Each replacement
settles another level of the recursion.
-/

namespace LifecycleHooks

open Attempt ResolveM Resolver

namespace ResolveM

mutual

/-- Replace the calls of lifted operations in a part of a plan by the plans for them. -/
def unfoldNode (hooks : Registry) (fuel : Nat) : CallNode → ResolveM (List CallNode)
  | .hook call => return [.hook call]
  | .lifted place type kind => expand hooks fuel type kind place
  | .elements place element body => do return [.elements place element (← unfoldNodes hooks fuel body)]

/-- Replace the calls of lifted operations in a plan by the plans for them. -/
def unfoldNodes (hooks : Registry) (fuel : Nat) : List CallNode → ResolveM (List CallNode)
  | [] => return []
  | node :: rest => do
      let first ← unfoldNode hooks fuel node
      let others ← unfoldNodes hooks fuel rest
      return first ++ others

end

/-- The plan for an operation, with the calls of lifted operations unfolded a number of
times. -/
def unfolded (hooks : Registry) (fuel : Nat) (id : TypeId) (kind : OpKind) (place : String) :
    (times : Nat) → ResolveM (List CallNode)
  | 0 => expand hooks fuel id kind place
  | times + 1 => do unfoldNodes hooks fuel (← unfolded hooks fuel id kind place times)

end ResolveM

/-- The type whose lifted operation is called. -/
def PlannedCall.liftedType? (call : PlannedCall) : Option TypeId :=
  match call.node with
  | .lifted _ type _ => some type
  | _ => none

/-- The types whose lifted operations a plan calls. -/
def liftedTypes (plan : List CallNode) : List TypeId := (plannedCalls plan).filterMap PlannedCall.liftedType?

namespace Resolver

section Replacing

variable {hooks : Registry} {kind : OpKind} {resolver : Resolver}

/-- A call that was unfolded: a call of a hook stays, and the plan of a lifted operation
takes the place of its call, inside the same loops. -/
inductive Replaced (hooks : Registry) (resolver : Resolver) : PlannedCall → List PlannedCall → Prop where
  | hook {loops : List Loop} {call : HookCall} :
      Replaced hooks resolver ⟨loops, .hook call⟩ [⟨loops, .hook call⟩]
  | lifted {loops : List Loop} {place : String} {type : TypeId} {kind : OpKind} {plan : List PlannedCall}
      (planned : Planned hooks kind resolver [] [{ type := type, place := place }] plan) :
      Replaced hooks resolver ⟨loops, .lifted place type kind⟩ (plan.map (PlannedCall.inside loops))

theorem Replaced.inside {call : PlannedCall} {part : List PlannedCall} (outer : List Loop)
    (replaced : Replaced hooks resolver call part) :
    Replaced hooks resolver (call.inside outer) (part.map (PlannedCall.inside outer)) := by
  cases replaced with
  | hook => exact .hook
  | @lifted loops place type kind plan planned =>
      have outside : (plan.map (PlannedCall.inside loops)).map (PlannedCall.inside outer) =
          plan.map (PlannedCall.inside (outer ++ loops)) := by
        simp [PlannedCall.inside_inside]
      rw [outside]
      exact .lifted planned

/-- What becomes of calls inside loops is what becomes of the calls, inside the loops. -/
theorem replaced_of_inside {outer : List Loop} {calls : List PlannedCall} {parts : List (List PlannedCall)}
    (replaced : List.Forall₂ (Replaced hooks resolver) (calls.map (PlannedCall.inside outer)) parts) :
    ∃ inner, List.Forall₂ (Replaced hooks resolver) calls inner ∧
      parts = inner.map (List.map (PlannedCall.inside outer)) := by
  induction calls generalizing parts with
  | nil =>
      cases replaced
      exact ⟨[], .nil, rfl⟩
  | cons call calls ih =>
      cases replaced with
      | cons first rest =>
          obtain ⟨inner, each, rfl⟩ := ih rest
          obtain ⟨loops, node⟩ := call
          cases first with
          | hook => exact ⟨_ :: inner, .cons .hook each, rfl⟩
          | @lifted _ place type kind plan planned =>
              exact ⟨_ :: inner, .cons (.lifted planned) each, by simp [PlannedCall.inside_inside]⟩

theorem replaced_hooks {calls : List HookCall} {parts : List (List PlannedCall)}
    (replaced : List.Forall₂ (Replaced hooks resolver) (calls.map PlannedCall.ofHook) parts) :
    parts.flatten = calls.map PlannedCall.ofHook := by
  induction calls generalizing parts with
  | nil =>
      cases replaced
      rfl
  | cons call calls ih =>
      cases replaced with
      | cons first rest =>
          cases first
          simp [ih rest, PlannedCall.ofHook]

/-- Unfolding settles another level of the recursion. -/
theorem Spells.replaced {levels : Nat} {branches : List Branch} {calls : List PlannedCall}
    {parts : List (List PlannedCall)} (spells : Spells hooks kind resolver levels branches calls)
    (replaced : List.Forall₂ (Replaced hooks resolver) calls parts) :
    Spells hooks kind resolver (levels + 1) branches parts.flatten := by
  induction spells generalizing parts with
  | done =>
      cases replaced
      exact .done
  | @deferred branch rest calls kept _ ih =>
      cases replaced with
      | @cons _ part _ parts first behind =>
          cases first with
          | @lifted _ _ _ _ plan planned =>
              have below := planned.spells le_rfl (fun _ => rfl)
              cases below with
              | opened kept level insides others =>
                  cases others
                  have opened : Spells hooks kind resolver 1 (branch :: rest) _ :=
                    .opened kept level insides (ih behind)
                  have outside : Branch.loops { type := branch.type, place := branch.place } = [] := rfl
                  rw [List.flatten_cons, outside, PlannedCall.map_inside_nil, List.append_nil]
                  exact opened
  | @opened levels branch rest inner hookCalls innerCalls calls kept level _ _ insideIh othersIh =>
      obtain ⟨own, others, rfl, mine, behind⟩ := forall₂_append_left replaced
      obtain ⟨parts, each, rfl⟩ := replaced_of_inside mine
      obtain ⟨first, below, rfl, areHooks, insides⟩ := forall₂_append_left each
      have sameHooks := replaced_hooks areHooks
      have goesOn : Spells hooks kind resolver (levels + 1 - 1) inner below.flatten := by
        exact (insideIh insides).mono (by omega)
      have opened := Spells.opened kept level goesOn (othersIh behind)
      simpa only [List.flatten_append, List.map_append, ← List.map_flatten, sameHooks] using opened

end Replacing
end Resolver

namespace ResolveM

section Unfolding

variable {hooks : Registry} {kind : OpKind} {trees : Set TypeTree} {ids : List TypeId} {resolver : Resolver}
  {fuel : Nat}

mutual

theorem unfoldNode_leads {done failed : Resolver → Resolver → Prop} [IsLead done failed]
    (leads : LeadsQueries hooks done failed) (fuel : Nat) :
    ∀ node : CallNode, (unfoldNode hooks fuel node).Leads done failed
  | .hook call => by
      rw [unfoldNode]
      exact leads_pure _
  | .lifted place type kind => by
      rw [unfoldNode]
      exact expandWithin_leads leads kind fuel [] type place
  | .elements place element body => by
      rw [unfoldNode]
      exact (unfoldNodes_leads leads fuel body).bind fun _ => leads_pure _

theorem unfoldNodes_leads {done failed : Resolver → Resolver → Prop} [IsLead done failed]
    (leads : LeadsQueries hooks done failed) (fuel : Nat) :
    ∀ nodes : List CallNode, (unfoldNodes hooks fuel nodes).Leads done failed
  | [] => by
      rw [unfoldNodes]
      exact leads_pure _
  | node :: rest => by
      rw [unfoldNodes]
      exact (unfoldNode_leads leads fuel node).bind fun _ =>
        (unfoldNodes_leads leads fuel rest).bind fun _ => leads_pure _

end

mutual

theorem unfoldNode_replaced {final later : Resolver} {result : List CallNode} :
    ∀ {resolver : Resolver} {node : CallNode}, unfoldNode hooks fuel node resolver = .ok result final →
      final.Extends later → ∃ parts, List.Forall₂ (Replaced hooks later) node.plannedCalls parts ∧
        plannedCalls result = parts.flatten
  | _, .hook call, run, _ => by
      rw [unfoldNode] at run
      obtain ⟨rfl, rfl⟩ := EStateM.Result.ok.inj run
      exact ⟨_, by simpa using .cons .hook .nil, by simp⟩
  | _, .lifted place type kind, run, extends_ => by
      rw [unfoldNode] at run
      have planned := expandWithin_planned run extends_
      exact ⟨_, by simpa using .cons (.lifted planned) .nil, by simp⟩
  | _, .elements place element body, run, extends_ => by
      rw [unfoldNode] at run
      obtain ⟨inner, middle, unfolds, rest⟩ := bind_eq_ok.mp run
      obtain ⟨rfl, rfl⟩ := EStateM.Result.ok.inj rest
      obtain ⟨parts, replaced, flat⟩ := unfoldNodes_replaced unfolds extends_
      refine ⟨parts.map (List.map (PlannedCall.inside [(place, element)])), ?_, ?_⟩
      · rw [CallNode.plannedCalls_elements, List.forall₂_map_left_iff, List.forall₂_map_right_iff]
        exact replaced.imp fun _ _ each => each.inside _
      · simp [flat, List.map_flatten]

theorem unfoldNodes_replaced {final later : Resolver} {result : List CallNode} :
    ∀ {resolver : Resolver} {nodes : List CallNode}, unfoldNodes hooks fuel nodes resolver = .ok result final →
      final.Extends later → ∃ parts, List.Forall₂ (Replaced hooks later) (plannedCalls nodes) parts ∧
        plannedCalls result = parts.flatten
  | _, [], run, _ => by
      rw [unfoldNodes] at run
      obtain ⟨rfl, rfl⟩ := EStateM.Result.ok.inj run
      exact ⟨[], by simp, by simp⟩
  | _, node :: rest, run, extends_ => by
      rw [unfoldNodes] at run
      obtain ⟨first, middle, unfolds, run⟩ := bind_eq_ok.mp run
      obtain ⟨others, last, unfoldsRest, run⟩ := bind_eq_ok.mp run
      obtain ⟨rfl, rfl⟩ := EStateM.Result.ok.inj run
      have learned := (unfoldNodes_leads (extends_leadsQueries hooks) fuel rest).of_ok unfoldsRest
      obtain ⟨parts, replaced, flat⟩ := unfoldNode_replaced unfolds (learned.trans extends_)
      obtain ⟨behind, replacedRest, flatRest⟩ := unfoldNodes_replaced unfoldsRest extends_
      refine ⟨parts ++ behind, ?_, ?_⟩
      · rw [plannedCalls_cons]
        exact List.rel_append replaced replacedRest
      · rw [plannedCalls_append, flat, flatRest, List.flatten_append]

end

mutual

theorem unfoldNode_settles (frozen : hooks.frozen = true) (finite : trees.Finite) :
    ∀ {resolver : Resolver} {node : CallNode}, resolver.Prepared hooks trees ids →
      (∀ call ∈ node.plannedCalls, ∀ place type kind, call.node = .lifted place type kind → type ∈ ids) →
      Settles (fun _ later => later.Prepared hooks trees ids) (fun fuel => unfoldNode hooks fuel node) resolver
  | resolver, .hook call, prepared, _ => by
      simp only [unfoldNode]
      exact settles_pure prepared
  | resolver, .lifted place type kind, prepared, known => by
      simp only [unfoldNode]
      have member : type ∈ ids := known ⟨[], .lifted place type kind⟩ (by simp) place type kind rfl
      have single : resolver.Prepared hooks trees [type] :=
        prepared.subset (List.cons_subset.mpr ⟨member, List.nil_subset _⟩)
      exact settles_prepared prepared
        (fun fuel => expandWithin_leads (prepared_leadsQueries hooks trees ids) kind fuel [] type place)
        (expandWithin_settles frozen finite single List.nodup_nil place)
  | resolver, .elements place element body, prepared, known => by
      simp only [unfoldNode]
      apply (unfoldNodes_settles frozen finite prepared fun call member => ?_).bind
      · exact fun _ _ _ _ after => settles_pure after
      · exact known (call.inside [(place, element)]) (by simpa using ⟨call, member, rfl⟩)

theorem unfoldNodes_settles (frozen : hooks.frozen = true) (finite : trees.Finite) :
    ∀ {resolver : Resolver} {nodes : List CallNode}, resolver.Prepared hooks trees ids →
      (∀ call ∈ plannedCalls nodes, ∀ place type kind, call.node = .lifted place type kind → type ∈ ids) →
      Settles (fun _ later => later.Prepared hooks trees ids) (fun fuel => unfoldNodes hooks fuel nodes) resolver
  | resolver, [], prepared, _ => by
      simp only [unfoldNodes]
      exact settles_pure prepared
  | resolver, node :: rest, prepared, known => by
      rw [plannedCalls_cons, List.forall_mem_append] at known
      simp only [unfoldNodes]
      apply (unfoldNode_settles frozen finite prepared known.1).bind
      intro first middle _ _ between
      apply (unfoldNodes_settles frozen finite between known.2).bind
      exact fun _ _ _ _ after => settles_pure after

end

/-- However often it is unfolded, the plan for a type that reaches finitely many types is
finished, and it follows the plain recursion. -/
theorem unfolded_settles {id : TypeId} (frozen : hooks.frozen = true) (finite : trees.Finite)
    (prepared : resolver.Prepared hooks trees [id]) (place : String) (times : Nat) :
    Settles (fun plan final => final.Prepared hooks trees [id] ∧ ∀ later : Resolver, final.Extends later →
        Spells hooks kind later (times + 1) [{ type := id, place := place }] (plannedCalls plan))
      (fun fuel => unfolded hooks fuel id kind place times) resolver := by
  have leads := prepared_leadsQueries hooks trees [id]
  induction times with
  | zero =>
      simp only [unfolded]
      apply (expandWithin_settles frozen finite prepared List.nodup_nil place).mono
      intro plan final fuel run _
      have follows (later : Resolver) (extends_ : final.Extends later) :
          Spells hooks kind later 1 [{ type := id, place := place }] (plannedCalls plan) :=
        (expandWithin_planned run extends_).spells le_rfl fun _ => rfl
      exact ⟨(expandWithin_leads leads kind fuel [] id place).of_ok run prepared, follows⟩
  | succ times ih =>
      simp only [unfolded]
      apply ih.bind
      rintro plan middle _ _ ⟨between, follows⟩
      have inside := (follows middle (.refl middle)).within (between.subset (List.nil_subset _))
        (List.forall_mem_singleton.mpr (between.within id (by simp)))
      have known : ∀ call ∈ plannedCalls plan, ∀ place type kind, call.node = .lifted place type kind →
          type ∈ liftedTypes plan ++ [id] := fun call member place type kind isLifted =>
        List.mem_append_left _ (List.mem_filterMap.mpr ⟨call, member, by rw [PlannedCall.liftedType?, isLifted]⟩)
      have holds : middle.Prepared hooks trees (liftedTypes plan ++ [id]) := by
        refine between.with_types fun type member => ?_
        obtain ⟨call, isCall, isType⟩ := List.mem_filterMap.mp member
        unfold PlannedCall.liftedType? at isType
        split at isType
        · rename_i isLifted
          exact inside call isCall _ type _ (by rw [isLifted, Option.some.inj isType])
        · cases isType
      apply (unfoldNodes_settles frozen finite holds known).mono
      intro result final fuel run after
      refine ⟨after.subset (List.subset_append_right _ _), fun later extends_ => ?_⟩
      have learned := (unfoldNodes_leads (extends_leadsQueries hooks) fuel plan).of_ok run
      obtain ⟨parts, replaced, flat⟩ := unfoldNodes_replaced run extends_
      rw [flat]
      exact (follows later (learned.trans extends_)).replaced replaced

end Unfolding
end ResolveM

namespace Resolver

variable {hooks : Registry} {resolver : Resolver} {id : TypeId}

/-- The plan for a type that reaches finitely many types is always finished.  Unfolded any
number of times, it calls exactly the hooks that stand at the paths of the plain recursion,
in the order of the paths; those that are missing lie behind a call that is left, whose path
is longer than the number of times. -/
theorem unfolded_plan_lists (serving : Serving hooks resolver) (frozen : hooks.frozen = true)
    (has : resolver.table.Has id) (finite : (resolver.reach id).Finite) (kind : OpKind) (place : String)
    (times : Nat) :
    Settles (fun plan final => ∃ marked, marked.map Prod.snd = plannedCalls plan ∧
        Lists PlannedCall.isHook (StandsAt hooks kind final id place) (times + 1) marked)
      (fun fuel => unfolded hooks fuel id kind place times) resolver := by
  apply (unfolded_settles frozen finite (serving.prepared has) place times).mono
  rintro plan final _ _ ⟨_, follows⟩
  exact (follows final (.refl final)).lists_single

/-- Trees of nodes, each of which holds an item and any number of nodes. -/
def nodeTable : TypeTable :=
  TypeTable.after {} [.object "Node" [] {}, .object "Item" [] {}, .wrap .seq 1,
    .define 1 { fields := [⟨"kids", 3⟩, ⟨"item", 2⟩] }]

/-- The hook that destroys an item. -/
def nodeHooks : Registry where
  entries := [{ kind := .destroy, target := 2, params := [], result := 2, impl := "drop" }]
  frozen := true

theorem nodeTable_built : nodeTable.Built :=
  TypeTable.Built.empty.after (by decide +kernel)

theorem unfolded_plan_lists_nodes :
    (reach { table := nodeTable } 1).Finite ∧
      Settles (fun plan final => ∃ marked, marked.map Prod.snd = plannedCalls plan ∧
          Lists PlannedCall.isHook (StandsAt nodeHooks .destroy final 1 "root") 3 marked)
        (fun fuel => unfolded nodeHooks fuel 1 .destroy "root" 2) { table := nodeTable } := by
  have serving : Serving nodeHooks { table := nodeTable } := .start nodeTable_built
  have closed : leadsToEachOther nodeTable [1, 2, 3] = true := by decide +kernel
  have finite := finite_reach serving.intact List.mem_cons_self closed
  have isNode : (nodeTable.get? 1).isSome = true := by decide +kernel
  exact ⟨finite, unfolded_plan_lists serving rfl isNode finite .destroy "root" 2⟩

example : ((unfolded nodeHooks 9 1 .destroy "root" 1).result? { table := nodeTable }).map callLines =
    some ["=destroy(root.item)",
      "for root.kids[i]: =destroy(root.kids[i].item), " ++
        "for root.kids[i].kids[i]: lifted =destroy(root.kids[i].kids[i])"] := by
  decide +kernel

end Resolver
end LifecycleHooks

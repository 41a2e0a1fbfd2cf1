import LifecycleHooks.Proofs.Lifting.PlanTree

/-!
# The calls of a plan

A plan is read as the list of its calls, in the order made and each with the loops around
it.  They follow the plain recursion as the plan does.
-/

namespace LifecycleHooks

/-- A call of a hook or of a lifted operation, with the loops around it, outermost first. -/
structure PlannedCall where
  loops : List Loop
  node : CallNode

namespace PlannedCall

/-- A call of a hook outside of all loops. -/
def ofHook (call : HookCall) : PlannedCall := ⟨[], .hook call⟩

/-- A call with further loops around it. -/
def inside (loops : List Loop) (call : PlannedCall) : PlannedCall :=
  { call with loops := loops ++ call.loops }

@[simp]
theorem inside_nil (call : PlannedCall) : call.inside [] = call := rfl

@[simp]
theorem inside_node (loops : List Loop) (call : PlannedCall) : (call.inside loops).node = call.node := rfl

theorem inside_inside (outer inner : List Loop) (call : PlannedCall) :
    (call.inside inner).inside outer = call.inside (outer ++ inner) := by
  simp [inside]

@[simp]
theorem map_inside_nil (calls : List PlannedCall) : calls.map (inside []) = calls := by
  have unchanged : inside [] = id := funext inside_nil
  rw [unchanged, List.map_id]

/-- Whether a hook is called. -/
def isHook (call : PlannedCall) : Prop := ∃ hook, call.node = .hook hook

end PlannedCall

mutual

/-- The calls of a part of a plan. -/
def CallNode.plannedCalls : CallNode → List PlannedCall
  | .hook call => [⟨[], .hook call⟩]
  | .lifted place type kind => [⟨[], .lifted place type kind⟩]
  | .elements place element body => (plannedCalls body).map (PlannedCall.inside [(place, element)])

/-- The calls of a plan. -/
def plannedCalls : List CallNode → List PlannedCall
  | [] => []
  | node :: rest => node.plannedCalls ++ plannedCalls rest

end

@[simp]
theorem plannedCalls_nil : plannedCalls [] = [] := by
  rw [plannedCalls]

@[simp]
theorem plannedCalls_cons (node : CallNode) (rest : List CallNode) :
    plannedCalls (node :: rest) = node.plannedCalls ++ plannedCalls rest := by
  rw [plannedCalls]

theorem plannedCalls_append (nodes others : List CallNode) :
    plannedCalls (nodes ++ others) = plannedCalls nodes ++ plannedCalls others := by
  induction nodes with
  | nil => simp
  | cons node nodes ih => simp [ih]

@[simp]
theorem CallNode.plannedCalls_hook (call : HookCall) :
    (CallNode.hook call).plannedCalls = [⟨[], .hook call⟩] := by
  rw [CallNode.plannedCalls]

@[simp]
theorem CallNode.plannedCalls_lifted (place : String) (type : TypeId) (kind : OpKind) :
    (CallNode.lifted place type kind).plannedCalls = [⟨[], .lifted place type kind⟩] := by
  rw [CallNode.plannedCalls]

@[simp]
theorem CallNode.plannedCalls_elements (place : String) (element : TypeId) (body : List CallNode) :
    (CallNode.elements place element body).plannedCalls =
      (LifecycleHooks.plannedCalls body).map (PlannedCall.inside [(place, element)]) := by
  rw [CallNode.plannedCalls]

theorem plannedCalls_hooks (calls : List HookCall) :
    plannedCalls (calls.map .hook) = calls.map PlannedCall.ofHook := by
  induction calls with
  | nil => simp
  | cons call calls ih => simp [ih, PlannedCall.ofHook]

/-- A loop around calls is a loop around each of them. -/
theorem plannedCalls_wrap (branch : Branch) (body : List CallNode) :
    plannedCalls (branch.wrap body) = (plannedCalls body).map (PlannedCall.inside branch.loops) := by
  unfold Branch.wrap Branch.loops
  cases branch.sequence? with
  | none => simp
  | some sequence => cases body <;> simp

namespace Resolver

open Attempt ResolveM

/-- The calls planned for values inside the plans of the active types.  A type is opened
once at most, and a call of its lifted operation stands where it is met again. -/
inductive Planned (hooks : Registry) (kind : OpKind) (resolver : Resolver) :
    (active : List TypeId) → List Branch → List PlannedCall → Prop where
  | done {active : List TypeId} : Planned hooks kind resolver active [] []
  | again {active : List TypeId} {branch : Branch} {rest : List Branch} {calls : List PlannedCall}
      (kept : (resolver.operations.lookup (branch.type, kind)).isSome = true)
      (recurs : Recurs hooks kind resolver branch.type) (isOpen : branch.type ∈ active)
      (others : Planned hooks kind resolver active rest calls) :
      Planned hooks kind resolver active (branch :: rest)
        (⟨branch.loops, .lifted branch.place branch.type kind⟩ :: calls)
  | opened {active : List TypeId} {branch : Branch} {rest inner : List Branch} {hookCalls : List HookCall}
      {innerCalls calls : List PlannedCall}
      (kept : (resolver.operations.lookup (branch.type, kind)).isSome = true)
      (level : Level hooks kind resolver branch.type branch.place hookCalls inner)
      (new : Recurs hooks kind resolver branch.type → branch.type ∉ active)
      (insides : Planned hooks kind resolver (branch.type :: active) inner innerCalls)
      (others : Planned hooks kind resolver active rest calls) :
      Planned hooks kind resolver active (branch :: rest)
        ((hookCalls.map PlannedCall.ofHook ++ innerCalls).map
          (PlannedCall.inside branch.loops) ++ calls)

section Planning

variable {hooks : Registry} {kind : OpKind} {resolver final later : Resolver} {id : TypeId} {place : String}
  {active : List TypeId}

/-- The calls of a plan are planned as it is. -/
theorem Plans.planned {branches : List Branch} {nodes : List CallNode}
    (plans : Plans hooks kind resolver active branches nodes) :
    Planned hooks kind resolver active branches (plannedCalls nodes) := by
  induction plans with
  | done => exact plannedCalls_nil ▸ .done
  | again kept recurs isOpen _ ih =>
      rw [plannedCalls_append, plannedCalls_wrap]
      simpa [PlannedCall.inside] using Planned.again kept recurs isOpen ih
  | opened kept level new _ _ insideIh ih =>
      rw [plannedCalls_append, plannedCalls_wrap, plannedCalls_append, plannedCalls_hooks]
      exact .opened kept level new insideIh ih

/-- Whatever plan is given, its calls follow the plain recursion. -/
theorem expandWithin_planned {fuel : Nat} {nodes : List CallNode}
    (run : expandWithin hooks kind fuel active id place resolver = .ok nodes final) (extends_ : final.Extends later) :
    Planned hooks kind later active [{ type := id, place := place }] (plannedCalls nodes) :=
  (expandWithin_plans run extends_).planned

end Planning
end Resolver
end LifecycleHooks

import LifecycleHooks.Lifting.Resolution

/-!
# Call plans

A call plan spells out the effective operation of a type on the value at a place:
the hooks to call, in order.  Arrays are unrolled index by index, and a sequence
becomes a loop over its elements.  A type that is met again inside its own plan
becomes a call of its lifted operation, which keeps the plan finite.
-/

namespace LifecycleHooks

/-- A call of the hook of a type on the value at a place. -/
structure HookCall where
  place : String
  type : TypeId
  entry : HookEntry
deriving DecidableEq, Repr

/-- The line that a hook call is written as. -/
def HookCall.line (call : HookCall) : String :=
  s!"{call.entry.kind.hookName}({call.place})"

/-- A part of a call plan. -/
inductive CallNode where
  /-- A hook is called. -/
  | hook (call : HookCall)
  /-- The lifted operation of a type is called. -/
  | lifted (place : String) (type : TypeId) (kind : OpKind)
  /-- The body is run for each element of a sequence, in index order. -/
  | elements (place : String) (element : TypeId) (body : List CallNode)
deriving Repr

mutual

/-- The line that a part of a plan is written as. -/
def CallNode.line : CallNode → String
  | .hook call => call.line
  | .lifted place _ kind => s!"lifted {kind.hookName}({place})"
  | .elements place _ body => s!"for {place}[i]: {commaList (callLines body)}"

/-- The lines that a plan is written as. -/
def callLines : List CallNode → List String
  | [] => []
  | node :: rest => node.line :: callLines rest

end

mutual

/-- The number of calls that a part of a plan holds.  A loop counts its body
once. -/
def CallNode.calls : CallNode → Nat
  | .hook _ => 1
  | .lifted .. => 1
  | .elements _ _ body => countCalls body

/-- The number of calls that a plan holds. -/
def countCalls : List CallNode → Nat
  | [] => 0
  | node :: rest => node.calls + countCalls rest

end

namespace ResolveM

/-- The place of a value converted to another type. -/
def convertedPlace (id : TypeId) (place : String) : ResolveM String := do
  let name ← ask (·.spell id)
  return s!"{name}({place})"

/-- The place of a constituent that stands alone in its owner. -/
def slotPlace (slot : Slot) (place : String) : ResolveM String :=
  match slot.step with
  | .field name => return s!"{place}.{name}"
  | .tupleElement index => return s!"{place}[{index}]"
  | .pointee => return s!"{place}[]"
  | .base | .underlying | .element _ => convertedPlace slot.type place

/-- The base of a type that is destroyed after the hook of the type, if that runs
a hook. -/
def destroyedBase? (hooks : Registry) (fuel : Nat) (id : TypeId) (kind : OpKind) :
    ResolveM (Option TypeId) := do
  match kind with
  | .destroy =>
      match (← onTable (TableM.body id)).base with
      | some base =>
          if (← resolve hooks fuel base kind).isBuiltIn then
            return none
          else
            return some base
      | none => return none
  | .assign | .deepCopy => return none

/-- The plan for a value of a type at a place, inside the plans of the active
types.  The hook of a derived object sees only its own part, so its base is
destroyed after it. -/
def expandWithin (hooks : Registry) (kind : OpKind) :
    (fuel : Nat) → (active : List TypeId) → TypeId → (place : String) → ResolveM (List CallNode)
  | 0, _, _, _ => throw .exhausted
  | fuel + 1, active, id, place => do
      match (← resolve hooks fuel id kind).outcome with
      | .builtIn => return []
      | .overridden entry => do
          let call := .hook ⟨place, id, entry⟩
          match ← destroyedBase? hooks fuel id kind with
          | none => return [call]
          | some base =>
              if id ∈ active then
                return [.lifted place id kind]
              else do
                let basePlace ← convertedPlace base place
                return call :: (← expandWithin hooks kind fuel (id :: active) base basePlace)
      | .lifted steps =>
          if id ∈ active then
            return [.lifted place id kind]
          else do
            let parts ← steps.mapM fun slot => do
              match slot.step with
              | .element (some count) => do
                  let plans ← (List.range count.toNat).mapM fun index =>
                    expandWithin hooks kind fuel (id :: active) slot.type s!"{place}[{index}]"
                  return plans.flatten
              | .element none => do
                  let body ← expandWithin hooks kind fuel (id :: active) slot.type s!"{place}[i]"
                  return if body.isEmpty then [] else [.elements place slot.type body]
              | _ => do
                  expandWithin hooks kind fuel (id :: active) slot.type (← slotPlace slot place)
            return parts.flatten

/-- The plan for the effective operation of a type on the value at a place. -/
def expand (hooks : Registry) (fuel : Nat) (id : TypeId) (kind : OpKind) (place : String) :
    ResolveM (List CallNode) :=
  expandWithin hooks kind fuel [] id place

end ResolveM
end LifecycleHooks

import LifecycleHooks.Hook.Registry

/-!
# Effective operations

The effective operation of a type is the code that runs when its values are
assigned, destroyed or deeply copied: a hook of its own, the operations of some
of its constituents in a fixed order, or nothing but the built-in behaviour.
-/

namespace LifecycleHooks

/-- Where an operation comes from. -/
inductive Outcome where
  /-- A hook is bound to the type. -/
  | overridden (entry : HookEntry)
  /-- The operations of these constituents are applied in turn. -/
  | lifted (steps : List Slot)
  /-- No hook takes part. -/
  | builtIn
deriving DecidableEq, Repr

/-- Whether no hook takes part in an operation. -/
def Outcome.isBuiltIn : Outcome → Bool
  | .builtIn => true
  | .overridden _ | .lifted _ => false

/-- The word for where an operation comes from. -/
def Outcome.word : Outcome → String
  | .overridden _ => "user_override"
  | .lifted _ => "lifted"
  | .builtIn => "default"

/-- The effective operation of a type. -/
structure Operation where
  type : TypeId
  kind : OpKind
  outcome : Outcome
deriving DecidableEq, Repr

/-- Whether no hook takes part in an operation. -/
def Operation.isBuiltIn (operation : Operation) : Bool :=
  operation.outcome.isBuiltIn

/-- Whether a constituent is the base of its owner. -/
def Slot.isBase (slot : Slot) : Bool :=
  slot.step = .base

/-- The order in which the constituents of a type are treated.  Destruction goes
backwards and ends with the base; the other operations start with it. -/
def orderSteps (kind : OpKind) (steps : List Slot) : List Slot :=
  let base := steps.filter Slot.isBase
  let own := steps.filter (!·.isBase)
  match kind with
  | .destroy => own.reverse ++ base
  | .assign | .deepCopy => base ++ own

@[simp]
theorem mem_orderSteps {kind : OpKind} {steps : List Slot} {slot : Slot} :
    slot ∈ orderSteps kind steps ↔ slot ∈ steps := by
  cases kind <;> cases isBase : slot.isBase <;> simp [orderSteps, isBase]

end LifecycleHooks

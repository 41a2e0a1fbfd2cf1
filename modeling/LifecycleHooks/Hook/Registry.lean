import LifecycleHooks.Types.Table

/-!
# The hook registry

The registry holds the bound hooks in the order of binding, at most one for each
type and operation.  It is filled first and then closed; nothing is bound after
that.
-/

namespace LifecycleHooks

/-- A hook bound to a nominal type.  Only a deep copy has an indirection: the one
that its parameter and its result are written with. -/
structure HookEntry where
  kind : OpKind
  target : TypeId
  params : List TypeId
  result : TypeId
  impl : String
  indirection : Option Indirection := none
  span : Span := {}
deriving DecidableEq, Repr

/-- The bound hooks, and whether binding is over. -/
structure Registry where
  entries : List HookEntry := []
  frozen : Bool := false
deriving DecidableEq, Repr

namespace Registry

/-- The hook bound to exactly this type for an operation. -/
def lookup (registry : Registry) (target : TypeId) (kind : OpKind) : Option HookEntry :=
  registry.entries.find? fun entry => entry.target = target && entry.kind = kind

/-- Close the registry. -/
def freeze (registry : Registry) : Registry := { registry with frozen := true }

/-- Add a hook.  The registry must be open and hold no hook for the same type and
operation. -/
def bind (registry : Registry) (entry : HookEntry) : Except Fault Registry :=
  if registry.frozen then
    .error (.registryFrozen entry.kind)
  else if (registry.lookup entry.target entry.kind).isSome then
    .error (.duplicateBinding entry.kind entry.target)
  else
    .ok { registry with entries := registry.entries ++ [entry] }

theorem entries_bind {registry bound : Registry} {entry : HookEntry}
    (binds : registry.bind entry = .ok bound) :
    bound.entries = registry.entries ++ [entry] := by
  unfold bind at binds
  split at binds
  · cases binds
  · split at binds
    · cases binds
    · cases binds
      rfl

@[simp]
theorem lookup_freeze (registry : Registry) (target : TypeId) (kind : OpKind) :
    registry.freeze.lookup target kind = registry.lookup target kind := rfl

end Registry
end LifecycleHooks

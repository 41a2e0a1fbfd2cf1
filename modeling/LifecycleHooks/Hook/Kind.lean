/-!
# Lifecycle operations

A program may supply its own code for three operations on values: assignment,
destruction and deep copy.  Each has the name under which a hook declares it.
-/

namespace LifecycleHooks

/-- The operations that accept a hook. -/
inductive OpKind where
  | assign
  | destroy
  | deepCopy
deriving DecidableEq, Repr

namespace OpKind

/-- All kinds, in their fixed order. -/
def all : List OpKind := [.assign, .destroy, .deepCopy]

/-- The name that declares a hook for an operation. -/
def hookName : OpKind → String
  | .assign => "="
  | .destroy => "=destroy"
  | .deepCopy => "=deepCopy"

/-- The operation that a hook name declares. -/
def ofHookName? (name : String) : Option OpKind :=
  all.find? (·.hookName = name)

@[simp]
theorem ofHookName?_hookName (kind : OpKind) : ofHookName? kind.hookName = some kind := by
  cases kind <;> decide

end OpKind
end LifecycleHooks

import LifecycleHooks.Lifting.Containment

/-!
# Resolving operations

The operation of a type is the hook bound to it, or else it is lifted from the
constituents from which some bound hook can be reached, or else built in.  A type
without finite structure has the built-in operation.  What was resolved is kept.
-/

namespace LifecycleHooks

namespace TypeTable

/-- The hook bound to a nominal type, or else to the generic object of an
instance. -/
def nominalHook? (table : TypeTable) (hooks : Registry) (id : TypeId) (kind : OpKind) :
    Except Fault (Option HookEntry) := do
  if !(← table.isNominal id) then
    return none
  else
    match hooks.lookup id kind with
    | some entry => return some entry
    | none =>
        match ← table.head? id with
        | some head => return hooks.lookup head kind
        | none => return none

/-- The hook that governs an operation on a type.  A deep copy belongs to the
references or the pointers to the type it is bound to; the other operations never
belong to a reference or a pointer. -/
def governingHook? (table : TypeTable) (hooks : Registry) (id : TypeId) (kind : OpKind) :
    Except Fault (Option HookEntry) := do
  let type ← table.get id
  match kind, type.indirection?, type.pointee? with
  | .deepCopy, some indirection, some pointee => do
      let entry ← table.nominalHook? hooks pointee .deepCopy
      return entry.filter (·.indirection = some indirection)
  | .deepCopy, _, _ => return none
  | _, some _, _ => return none
  | _, none, _ => table.nominalHook? hooks id kind

end TypeTable

/-- Whether the constituents of a type take part in an operation on it.  Only a
deep copy follows references and pointers; parameter modes and type variables are
never followed. -/
def followsConstituents (kind : OpKind) : TypeDef → Bool
  | .wrap .ref _ | .wrap .ptr _ => kind = .deepCopy
  | .wrap .var _ | .wrap .lent _ | .typevar _ => false
  | _ => true

namespace ResolveM

/-- The constituents that take part in an operation on a type. -/
def relevantSlots (id : TypeId) (kind : OpKind) : ResolveM (List Slot) := do
  if followsConstituents kind (← fetch id) then
    onTable (TableM.constituents id)
  else
    return []

/-- The outcome that was found for a type before. -/
def known? (id : TypeId) (kind : OpKind) : ResolveM (Option Outcome) := do
  return (← get).operations.lookup (id, kind)

/-- Search the pending types and what they are made from for a type with a hook.
A type that was resolved before is not searched again. -/
def searchHook (hooks : Registry) (kind : OpKind) :
    (fuel : Nat) → (seen pending : List TypeId) → ResolveM Bool
  | 0, _, _ => throw .exhausted
  | _ + 1, _, [] => return false
  | fuel + 1, seen, id :: pending => do
      if id ∈ seen then
        searchHook hooks kind fuel seen pending
      else if ← isUnresolvable fuel id then
        searchHook hooks kind fuel (id :: seen) pending
      else
        match ← known? id kind with
        | some outcome =>
            if outcome.isBuiltIn then
              searchHook hooks kind fuel (id :: seen) pending
            else
              return true
        | none => do
            if (← ask (·.governingHook? hooks id kind)).isSome then
              return true
            else do
              let slots ← relevantSlots id kind
              searchHook hooks kind fuel (id :: seen)
                ((slots.map Slot.type).reverse ++ pending)

/-- Whether a hook can be reached from a type. -/
def reachesHook (hooks : Registry) (fuel : Nat) (id : TypeId) (kind : OpKind) :
    ResolveM Bool := do
  match ← known? id kind with
  | some outcome => return !outcome.isBuiltIn
  | none => searchHook hooks kind fuel [] [id]

/-- Work out the outcome of an operation on a type. -/
def determine (hooks : Registry) (fuel : Nat) (id : TypeId) (kind : OpKind) :
    ResolveM Outcome := do
  if ← isUnresolvable fuel id then
    return .builtIn
  else
    match ← ask (·.governingHook? hooks id kind) with
    | some entry => return .overridden entry
    | none => do
        let slots ← relevantSlots id kind
        if slots.isEmpty then
          return .builtIn
        else if ← reachesHook hooks fuel id kind then
          let steps ← slots.filterM fun slot => reachesHook hooks fuel slot.type kind
          return .lifted (orderSteps kind steps)
        else
          return .builtIn

/-- The effective operation of a type.  The registry has to be closed. -/
def resolve (hooks : Registry) (fuel : Nat) (id : TypeId) (kind : OpKind) :
    ResolveM Operation := do
  if !hooks.frozen then
    throw .registryOpen
  else
    match ← known? id kind with
    | some outcome => return ⟨id, kind, outcome⟩
    | none => do
        let outcome ← determine hooks fuel id kind
        modify fun resolver =>
          { resolver with operations := ((id, kind), outcome) :: resolver.operations }
        return ⟨id, kind, outcome⟩

/-- Whether destroying a value of a type runs a hook. -/
def isDestructible (hooks : Registry) (fuel : Nat) (id : TypeId) : ResolveM Bool := do
  return !(← resolve hooks fuel id .destroy).isBuiltIn

/-- The three operations of each of the given types. -/
def operationTable (hooks : Registry) (fuel : Nat) (ids : List TypeId) :
    ResolveM (List (TypeId × List Operation)) :=
  ids.mapM fun id => do
    return (id, ← OpKind.all.mapM (resolve hooks fuel id))

end ResolveM
end LifecycleHooks

import LifecycleHooks.Lifting.Resolver

/-!
# Generic objects that grow without end

The body of a generic object may hold ever larger instances of the object
itself, so that its constituents never come to an end.  The object is searched
once along all its constituents; an instance that nests too deeply settles that
it grows.  Instances of other objects that grow, or that are still being judged,
are not followed, so the blame falls on the object that does the growing.
-/

namespace LifecycleHooks

/-- The deepest nesting of an instance that does not yet count as growth. -/
def nestingLimit : Nat := 32

namespace ResolveM

/-- Put a type on the list of generic objects that are being judged. -/
def beginJudging (head : TypeId) : ResolveM Unit :=
  modify fun resolver => { resolver with judging := head :: resolver.judging }

/-- Whether a type is an instance that nests too deeply. -/
def isTooDeep (id : TypeId) : ResolveM Bool := do
  match ← fetch id with
  | .applied .. => return nestingLimit < (← onTable (TableM.nesting id))
  | _ => return false

mutual

/-- Whether the generic object behind a type grows without end. -/
def growsForever : (fuel : Nat) → TypeId → ResolveM Bool
  | 0, _ => throw .exhausted
  | fuel + 1, id => do
      match ← ask (·.head? id) with
      | none => return false
      | some head => do
          if (← fetch head).typeParams.isEmpty then
            return false
          else
            match (← get).growth.lookup head with
            | some known => return known
            | none => do
                beginJudging head
                let grows ← Attempt.andFinally (searchGrowth fuel head [] [head])
                  fun resolver => { resolver with judging := resolver.judging.erase head }
                modify fun resolver =>
                  { resolver with growth := (head, grows) :: resolver.growth }
                return grows

/-- Search the constituents of a generic object for an instance that nests too
deeply.  The types still to be searched are taken from the front. -/
def searchGrowth : (fuel : Nat) → (head : TypeId) → (seen pending : List TypeId) →
    ResolveM Bool
  | 0, _, _, _ => throw .exhausted
  | _ + 1, _, _, [] => return false
  | fuel + 1, head, seen, id :: pending => do
      if id ∈ seen then
        searchGrowth fuel head seen pending
      else do
        let follow ← match ← fetch id with
          | .applied other _ =>
              if other = head then
                pure true
              else if other ∈ (← get).judging then
                pure false
              else
                pure !(← growsForever fuel id)
          | _ => pure true
        if !follow then
          searchGrowth fuel head (id :: seen) pending
        else if ← isTooDeep id then
          return true
        else do
          let slots ← onTable (TableM.constituents id)
          searchGrowth fuel head (id :: seen) ((slots.map Slot.type).reverse ++ pending)

end

end ResolveM
end LifecycleHooks

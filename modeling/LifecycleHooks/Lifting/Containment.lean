import LifecycleHooks.Lifting.Growth

/-!
# Containment by value

A type contains by value its base, its fields, its tuple and array elements and
the type that it is distinct from; references, pointers and sequences break the
containment.  A type that contains itself by value would have no finite size.

An exploration follows containment depth first from one type to all types that
were not visited before, and then settles which of them lie on a cycle.  Types
that an earlier exploration visited cannot lead back to the new ones.  When an
exploration fails, the types from which its unfinished trail can be reached stay
visited without being settled.
-/

namespace LifecycleHooks

/-- The types that can be reached along links from the pending ones, the last
found first.  Each type is expanded once. -/
def reachAlong (links : List (TypeId × List TypeId)) :
    (fuel : Nat) → (seen pending : List TypeId) → List TypeId
  | 0, seen, _ => seen
  | _ + 1, seen, [] => seen
  | fuel + 1, seen, id :: pending =>
      if id ∈ seen then
        reachAlong links fuel seen pending
      else
        reachAlong links fuel (id :: seen) (((links.lookup id).getD []) ++ pending)

/-- The types that can be reached from a type along one link or more.  Every
step takes one target of a link off the pending ones. -/
def reachable (links : List (TypeId × List TypeId)) (id : TypeId) : List TypeId :=
  let targets := (links.flatMap Prod.snd).length
  let first := (links.lookup id).getD []
  reachAlong links (targets + first.length + 1) [] first

namespace Resolver

/-- The cycles among the types of the current exploration: each type that can be
reached from itself and cannot reach the unfinished trail, with the types that it
reaches and that reach it, in the order found. -/
def foundCycles (resolver : Resolver) : List (TypeId × List TypeId) :=
  let reach := resolver.links.map fun link => (link.1, reachable resolver.links link.1)
  reach.filterMap fun (id, reached) =>
    if id ∈ reached ∧ !(resolver.trail.any fun open? => open? = id || open? ∈ reached) then
      some (id, (reach.filter fun (other, back) => other ∈ reached && id ∈ back).map Prod.fst)
    else
      none

/-- End the current exploration and keep the cycles that it found. -/
def settle (resolver : Resolver) : Resolver :=
  { resolver with
    cycles := resolver.cycles ++ resolver.foundCycles
    links := []
    trail := [] }

end Resolver

namespace ResolveM

/-- Whether the constituents of a type are contained by value. -/
def containsByValue : TypeDef → Bool
  | .object _ | .applied .. | .tuple _ | .array .. | .distinct .. => true
  | .scalar _ | .void | .unknown | .typevar _ | .wrap .. => false

/-- The types that a type contains directly by value.  An instance of a generic
object that grows without end counts as empty. -/
def byValueParts (fuel : Nat) (id : TypeId) : ResolveM (List TypeId) := do
  if ← growsForever fuel id then
    return []
  else if containsByValue (← fetch id) then
    return (← onTable (TableM.constituents id)).map Slot.type
  else
    return []

/-- Visit a type and, depth first, all types it contains by value that were not
visited before. -/
def explore : (fuel : Nat) → TypeId → ResolveM Unit
  | 0, _ => throw .exhausted
  | fuel + 1, id => do
      modify fun resolver =>
        { resolver with visited := id :: resolver.visited, trail := id :: resolver.trail }
      let parts ← byValueParts fuel id
      modify fun resolver => { resolver with links := resolver.links ++ [(id, parts)] }
      parts.forM fun part => do
        if part ∉ (← get).visited then
          explore fuel part
      modify fun resolver => { resolver with trail := resolver.trail.tail }

/-- Make sure that it is settled whether a type contains itself by value. -/
def exploreOnce (fuel : Nat) (id : TypeId) : ResolveM Unit := do
  if id ∉ (← get).visited then
    Attempt.andFinally (explore fuel id) Resolver.settle

/-- Report a generic object that grows without end, unless it was reported. -/
def reportGrowth (head : TypeId) : ResolveM Unit := do
  if head ∉ (← get).reported then
    modify fun resolver => { resolver with reported := head :: resolver.reported }
    let name ← ask (·.spell head)
    report
      { phase := .resolve
        code := some .unresolvableRecursion
        message := s!"recursive generic type '{name}' contains ever larger instances of itself; " ++
          "its structure never ends"
        span := ← ask (·.declaredAt head) }

/-- Report the cycle of a type that contains itself by value, unless it was
reported.  The whole cycle counts as reported with it. -/
def reportCycle (id : TypeId) (cycle : List TypeId) : ResolveM Unit := do
  if id ∉ (← get).reported then
    modify fun resolver => { resolver with reported := cycle ++ resolver.reported }
    let names ← cycle.mapM fun member => ask (·.spell member)
    let first := names.headD ""
    let path := " -> ".intercalate (names ++ [first])
    report
      { phase := .resolve
        code := some .unresolvableRecursion
        message := s!"recursive type '{first}' contains itself by value ({path}); " ++
          "break the cycle with `ref`, `ptr` or `seq`"
        span := ← ask (·.declaredAt id) }

/-- Whether a type has no finite structure: it belongs to a generic object that
grows without end, or it contains itself by value.  Either is reported once. -/
def isUnresolvable (fuel : Nat) (id : TypeId) : ResolveM Bool := do
  if ← growsForever fuel id then
    reportGrowth ((← ask (·.head? id)).getD id)
    return true
  else do
    exploreOnce fuel id
    match (← get).cycles.lookup id with
    | some cycle => do
        reportCycle id cycle
        return true
    | none => return false

end ResolveM
end LifecycleHooks

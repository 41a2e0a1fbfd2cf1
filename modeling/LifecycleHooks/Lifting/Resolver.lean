import LifecycleHooks.Lifting.Operation
import LifecycleHooks.Source.Diagnostic
import LifecycleHooks.Types.Instantiation

/-!
# The state of resolution

Resolving operations works out bodies of instances, which makes new types, and it
keeps what it has found: which generic objects grow without end, which types
contain themselves by value, what has been reported, and the operations
themselves.
-/

namespace LifecycleHooks

/-- What is known while operations are being resolved. -/
structure Resolver where
  table : TypeTable := {}
  /-- The generic objects that were judged, and whether they grow without end. -/
  growth : List (TypeId × Bool) := []
  /-- The generic objects that are being judged. -/
  judging : List TypeId := []
  /-- The types whose containment was followed. -/
  visited : List TypeId := []
  /-- The types of the current exploration with their by-value constituents, in
  the order found. -/
  links : List (TypeId × List TypeId) := []
  /-- The types of the current exploration that are not finished, innermost
  first. -/
  trail : List TypeId := []
  /-- The types that contain themselves by value, with the types of their cycle. -/
  cycles : List (TypeId × List TypeId) := []
  /-- The types that were reported. -/
  reported : List TypeId := []
  /-- The operations that were resolved. -/
  operations : List ((TypeId × OpKind) × Outcome) := []
  diagnostics : List Diagnostic := []
deriving Repr

/-- A computation on the state of resolution that can fail. -/
abbrev ResolveM := Attempt Resolver

namespace ResolveM

/-- Run a computation on the type table. -/
def onTable {Result : Type} (action : TableM Result) : ResolveM Result :=
  Attempt.onPart Resolver.table (fun table resolver => { resolver with table := table }) action

/-- Ask the type table a question. -/
def ask {Result : Type} (question : TypeTable → Except Fault Result) : ResolveM Result := do
  Attempt.ofExcept (question (← get).table)

/-- The definition of a type. -/
def fetch (id : TypeId) : ResolveM TypeDef := ask (·.get id)

/-- Add a diagnostic. -/
def report (diagnostic : Diagnostic) : ResolveM Unit :=
  modify fun resolver => { resolver with diagnostics := resolver.diagnostics ++ [diagnostic] }

end ResolveM
end LifecycleHooks

import LifecycleHooks.Hook.Kind
import LifecycleHooks.Text.Quoted
import LifecycleHooks.Text.Utf8

/-!
# Faults

A fault is a failure of an operation itself, as opposed to a diagnostic about
the analysed program: an unknown id, an operation out of order, a scope graph
that is broken.  `Fault.message` gives each its text.
-/

namespace LifecycleHooks

/-- The ways in which the exits of a scope graph can be incomplete. -/
inductive ExitDefect where
  | unknownEdge (scope edge : Int)
  | pointWithoutEdge (scope anchor : Int)
  | noFallthroughEdge (scope : Int)
  | brokenChain (edge : Int)
  | notEnumerated (edge scope : Int)
deriving DecidableEq, Repr

/-- What is wrong with the exits of the named procedure. -/
def ExitDefect.message (procedure : String) : ExitDefect → String
  | .unknownEdge scope edge =>
      s!"scope {scope} of '{procedure}' references unknown exit edge {edge}"
  | .pointWithoutEdge scope anchor =>
      s!"scope {scope} of '{procedure}' has exit point at node {anchor} with no exit edge"
  | .noFallthroughEdge scope =>
      s!"scope {scope} of '{procedure}' can fall through but has no fallthrough edge"
  | .brokenChain edge =>
      s!"exit edge {edge} of '{procedure}' does not unwind a contiguous scope chain"
  | .notEnumerated edge scope =>
      s!"exit edge {edge} of '{procedure}' leaves scope {scope} without being enumerated there"

/-- The ways in which an operation can fail. -/
inductive Fault where
  /-- No type, scope or edge has this id. -/
  | unknownId (id : Int)
  /-- No analysed procedure has this name. -/
  | unknownProcedure (name : String)
  /-- A body was given to a type that is no object. -/
  | bodyOfNonObject (name : String)
  /-- Arguments were given to a type that takes none. -/
  | notGeneric (name : String)
  /-- A generic object was given the wrong number of arguments. -/
  | typeArity (name : String) (expected actual : Nat)
  /-- A type already has a hook for the operation. -/
  | duplicateBinding (kind : OpKind) (target : Int)
  /-- A hook was bound after the registry had been closed. -/
  | registryFrozen (kind : OpKind)
  /-- An operation was resolved before the registry had been closed. -/
  | registryOpen
  /-- The exits of a scope graph are incomplete. -/
  | missingExitEdge (procedure : String) (defect : ExitDefect)
  /-- A loop was left where there is none. -/
  | loopControlOutsideLoop (control procedure : String)
  /-- An edge was struck off a list that does not hold it. -/
  | edgeNotListed
  /-- Something other than a call was handed to a task. -/
  | spawnWithoutCall
  /-- A path holds a null character. -/
  | nullInPath
  /-- A text is not encoded in UTF-8. -/
  | undecodable (error : Text.Utf8Error)
  /-- A type is a part of its own spelling. -/
  | endlessType (id : Int)
  /-- The budget of steps was used up before the answer was found. -/
  | exhausted
deriving DecidableEq, Repr

namespace Fault

/-- The text of a fault. -/
def message : Fault → String
  | .unknownId id => toString id
  | .unknownProcedure name => Text.quoted name
  | .bodyOfNonObject name => s!"define_object on non-object type {name}"
  | .notGeneric name => s!"{name} is not a generic object type"
  | .typeArity name expected actual =>
      s!"{name} expects {expected} type argument(s), got {actual}"
  | .duplicateBinding kind target =>
      s!"duplicate binding for {kind.hookName} on type id {target}"
  | .registryFrozen kind => s!"cannot bind {kind.hookName} after the binder phase"
  | .registryOpen => "resolver queried before the binder phase completed"
  | .missingExitEdge procedure defect => defect.message procedure
  | .loopControlOutsideLoop control procedure =>
      s!"{control} outside of a loop in '{procedure}'"
  | .edgeNotListed => "list.remove(x): x not in list"
  | .spawnWithoutCall => "only a call can be spawned"
  | .nullInPath => "embedded null byte"
  | .undecodable error => error.message
  | .endlessType id => s!"type {id} is a part of its own spelling"
  | .exhausted => "the step budget is used up"

end Fault

/-- A computation on a state that can fail.  A failure keeps the state as it was
left, so that later operations see what was done before it. -/
abbrev Attempt (State : Type) := EStateM Fault State

namespace Attempt

variable {State Part Result : Type}

/-- A computation that does not touch the state. -/
def ofExcept : Except Fault Result → Attempt State Result
  | .ok result => pure result
  | .error fault => throw fault

/-- Run a computation on a part of the state. -/
def onPart (part : State → Part) (replace : Part → State → State)
    (action : Attempt Part Result) : Attempt State Result := fun state =>
  match action (part state) with
  | .ok result changed => .ok result (replace changed state)
  | .error fault changed => .error fault (replace changed state)

/-- Run a computation, and a clean-up after it whether it fails or not. -/
def andFinally (action : Attempt State Result) (cleanUp : State → State) :
    Attempt State Result := fun state =>
  match action state with
  | .ok result changed => .ok result (cleanUp changed)
  | .error fault changed => .error fault (cleanUp changed)

/-- Run a computation and give its outcome, which does not fail. -/
def outcome (action : Attempt State Result) : Attempt State (Except Fault Result) := fun state =>
  match action state with
  | .ok result changed => .ok (.ok result) changed
  | .error fault changed => .ok (.error fault) changed

end Attempt
end LifecycleHooks

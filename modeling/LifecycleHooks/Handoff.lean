import LifecycleHooks.Lifting.CallPlan
import LifecycleHooks.Procedure.Basic

/-!
# Handing values to tasks

Every argument of a spawned call is deeply copied before the task starts, so that
no storage is shared with it.  A copy plan calls the hook where one governs the
deep copy, allocates fresh storage for every other reference, pointer and sequence
it reaches, and refers back to itself where a type is met again inside its own
plan.
-/

namespace LifecycleHooks

/-- How an argument is copied. -/
inductive HandoffStrategy where
  | userHook
  | lifted
  | structuralClone
deriving DecidableEq, Repr

namespace HandoffStrategy

/-- The word for a way to copy. -/
def word : HandoffStrategy → String
  | .userHook => "user_hook"
  | .lifted => "lifted"
  | .structuralClone => "structural_clone"

/-- The way to copy that follows from the effective deep copy of a type. -/
def ofOutcome : Outcome → HandoffStrategy
  | .overridden _ => .userHook
  | .lifted _ => .lifted
  | .builtIn => .structuralClone

end HandoffStrategy

/-- A part of a copy plan. -/
inductive CopyNode where
  /-- A hook is called. -/
  | hook (call : HookCall)
  /-- Fresh storage is allocated, and the children are copied into it. -/
  | clone (place : String) (type : TypeId) (children : List CopyNode)
  /-- The copy of a type that encloses this one is used again. -/
  | recursive (place : String) (type : TypeId)
deriving Repr

mutual

/-- The lines that a part of a copy plan is written as. -/
def CopyNode.lines : CopyNode → List String
  | .hook call => [call.line]
  | .clone place _ children => s!"clone({place})" :: copyLines children
  | .recursive place _ => [s!"recursive clone({place})"]

/-- The lines that a copy plan is written as. -/
def copyLines : List CopyNode → List String
  | [] => []
  | node :: rest => node.lines ++ copyLines rest

end

/-- The copy of one argument of one spawn. -/
structure Handoff where
  spawn : NodeId
  callee : String
  index : Nat
  type : TypeId
  operation : Operation
  plan : List CopyNode
  span : Span
deriving Repr

namespace Handoff

/-- How the argument is copied. -/
def strategy (handoff : Handoff) : HandoffStrategy :=
  .ofOutcome handoff.operation.outcome

/-- Whether a plain copy of the bits suffices. -/
def isBitwise (handoff : Handoff) : Bool :=
  handoff.strategy = .structuralClone && handoff.plan.isEmpty

end Handoff

/-- A call that is handed to a task. -/
structure Spawn where
  note : Note
  callee : String
  args : List Expr
deriving Repr

mutual

/-- The spawns of a statement, in the order written. -/
def Stmt.spawns : Stmt → List Spawn
  | .block block => block.spawns
  | .branch _ _ yes none => yes.spawns
  | .branch _ _ yes (some no) => yes.spawns ++ no.spawns
  | .loop _ _ body => body.spawns
  | .spawn note _ callee args => [⟨note, callee, args⟩]
  | .declare .. | .assign .. | .expr .. | .return .. | .break _ | .continue _ => []

/-- The spawns of a block, in the order written. -/
def Block.spawns : Block → List Spawn
  | .mk _ statements => spawnsOf statements

/-- The spawns of statements, in the order written. -/
def spawnsOf : List Stmt → List Spawn
  | [] => []
  | statement :: rest => statement.spawns ++ spawnsOf rest

end

/-- Whether a type is storage that can be shared: a reference, a pointer or a
sequence. -/
def TypeDef.isSharedStorage : TypeDef → Bool
  | .wrap .ref _ | .wrap .ptr _ | .wrap .seq _ => true
  | _ => false

namespace ResolveM

/-- Search the pending types and what they are made from for storage that can be
shared. -/
def searchStorage : (fuel : Nat) → (seen pending : List TypeId) → ResolveM Bool
  | 0, _, _ => throw .exhausted
  | _ + 1, _, [] => return false
  | fuel + 1, seen, id :: pending => do
      if id ∈ seen then
        searchStorage fuel seen pending
      else if ← isUnresolvable fuel id then
        searchStorage fuel (id :: seen) pending
      else if (← fetch id).isSharedStorage then
        return true
      else do
        let slots ← onTable (TableM.constituents id)
        searchStorage fuel (id :: seen) ((slots.map Slot.type).reverse ++ pending)

/-- Whether storage that can be shared is reached from a type. -/
def ownsStorage (fuel : Nat) (id : TypeId) : ResolveM Bool :=
  searchStorage fuel [] [id]

/-- The copy plan for a value of a type at a place, inside the plans of the active
types. -/
def copyWithin (hooks : Registry) :
    (fuel : Nat) → (active : List TypeId) → TypeId → (place : String) → ResolveM (List CopyNode)
  | 0, _, _, _ => throw .exhausted
  | fuel + 1, active, id, place => do
      if ← isUnresolvable fuel id then
        return []
      else
        match (← resolve hooks fuel id .deepCopy).outcome with
        | .overridden entry => return [.hook ⟨place, id, entry⟩]
        | .lifted _ | .builtIn => do
            let type ← fetch id
            if id ∈ active then
              if type.isSharedStorage || (← ownsStorage fuel id) then
                return [.recursive place id]
              else
                return []
            else
              match type with
              | .wrap .ref inner | .wrap .ptr inner => do
                  let children ← copyWithin hooks fuel (id :: active) inner s!"{place}[]"
                  return [.clone place id children]
              | .wrap .seq element => do
                  let children ← copyWithin hooks fuel (id :: active) element s!"{place}[i]"
                  return [.clone place id children]
              | _ => do
                  let slots ← onTable (TableM.constituents id)
                  let parts ← slots.mapM fun slot => do
                    match slot.step with
                    | .element count => do
                        let plans ← (List.range (count.getD 0).toNat).mapM fun index =>
                          copyWithin hooks fuel (id :: active) slot.type s!"{place}[{index}]"
                        return plans.flatten
                    | .pointee => return []
                    | _ => do
                        copyWithin hooks fuel (id :: active) slot.type (← slotPlace slot place)
                  return parts.flatten

/-- The copy plan for a value of a type at a place. -/
def copyPlan (hooks : Registry) (fuel : Nat) (id : TypeId) (place : String) :
    ResolveM (List CopyNode) :=
  copyWithin hooks fuel [] id place

/-- The place of an argument: its name if it is a variable, or else one made from
its index. -/
def argumentPlace (arg : Expr) (index : Nat) : String :=
  match arg with
  | .var _ name _ => name
  | _ => s!"arg{index}"

/-- The copy of an argument whose type is known. -/
def handOff (hooks : Registry) (fuel : Nat) (spawn : Spawn) (arg : Expr) (index : Nat) :
    ResolveM (Option Handoff) := do
  match arg.type with
  | none => return none
  | some type => do
      let operation ← resolve hooks fuel type .deepCopy
      let plan ← copyPlan hooks fuel type (argumentPlace arg index)
      return some
        { spawn := spawn.note.id
          callee := spawn.callee
          index := index
          type := type
          operation := operation
          plan := plan
          span := spawn.note.span }

/-- The copies of the arguments of a spawn. -/
def handOffSpawn (hooks : Registry) (fuel : Nat) (spawn : Spawn) : ResolveM (List Handoff) :=
  spawn.args.zipIdx.filterMapM fun (arg, index) => handOff hooks fuel spawn arg index

/-- The copies made at all spawns of a block. -/
def handOffBlock (hooks : Registry) (fuel : Nat) (block : Block) : ResolveM (List Handoff) := do
  return (← block.spawns.mapM (handOffSpawn hooks fuel)).flatten

end ResolveM
end LifecycleHooks

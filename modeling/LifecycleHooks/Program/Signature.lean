import LifecycleHooks.Types.Instantiation

/-!
# Signatures

A signature tells the types of the parameters and of the result of a procedure.
When a generic procedure is called, the types of the arguments are matched with
those of the parameters to find what its type variables stand for.
-/

namespace LifecycleHooks

/-- The declared shape of a procedure. -/
structure Signature where
  name : String
  params : List TypeId
  result : TypeId
  typeVars : List TypeId
  isHook : Bool
  span : Span
deriving DecidableEq, Repr

/-- Whether a type is a parameter mode. -/
def TypeDef.isParamMode : TypeDef → Bool
  | .wrap wrapper _ => wrapper.isParamMode
  | _ => false

/-- Whether the parts of two types correspond to each other. -/
def TypeDef.corresponds : TypeDef → TypeDef → Bool
  | .applied head args, .applied other others => head = other && args.length = others.length
  | first, second => first.kind = second.kind && first.parts.length = second.parts.length

namespace TypeTable

/-- Match the type of an argument with that of a parameter, whose parts nest less
than `depth` deep.  What a type variable was first found to stand for is kept.  A
parameter mode does not count when the argument has none, and types that do not
correspond are passed over. -/
def matchWithin (table : TypeTable) : (depth : Nat) → (param arg : TypeId) → Substitution →
    Except Fault Substitution
  | 0, param, _, _ => .error (.endlessType param)
  | depth + 1, param, arg, found => do
      match ← table.get param with
      | .typevar _ =>
          if (found.lookup param).isSome then
            return found
          else
            return found ++ [(param, arg)]
      | paramType => do
          let argType ← table.get arg
          if paramType.isParamMode && !argType.isParamMode then
            match paramType.pointee? with
            | some inner => table.matchWithin depth inner arg found
            | none => return found
          else if paramType.corresponds argType then
            (paramType.parts.zip argType.parts).foldlM
              (fun found (param, arg) => table.matchWithin depth param arg found) found
          else
            return found

/-- Match the types of arguments with those of parameters, in order. -/
def matchArguments (table : TypeTable) (params args : List TypeId) :
    Except Fault Substitution :=
  (params.zip args).foldlM
    (fun found (param, arg) => table.matchWithin (table.size + 1) param arg found) []

/-- The type that is reached through references, pointers and parameter modes
that nest less than `depth` deep. -/
def valueTypeWithin (table : TypeTable) : (depth : Nat) → TypeId → Except Fault TypeId
  | 0, id => .error (.endlessType id)
  | depth + 1, id => do
      match (← table.get id).pointee? with
      | some inner => table.valueTypeWithin depth inner
      | none => return id

/-- The type that is reached through references, pointers and parameter modes. -/
def valueType (table : TypeTable) (id : TypeId) : Except Fault TypeId :=
  table.valueTypeWithin (table.size + 1) id

end TypeTable
end LifecycleHooks

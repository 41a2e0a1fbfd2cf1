import LifecycleHooks.Types.Queries

/-!
# Substitution and instantiation

Substitution replaces type variables in the spelling of a type.  The body of an
instance is the body of its generic object with the arguments put in for the type
parameters; with it the constituents of every type are at hand, and a field can
be looked up along the chain of bases.
-/

namespace LifecycleHooks

/-- Which types stand for which type variables. -/
abbrev Substitution := List (TypeId × TypeId)

namespace TableM

/-- Substitute in a type whose operands nest less than `depth` deep. -/
def substituteWithin (mapping : Substitution) : (depth : Nat) → TypeId → TableM TypeId
  | 0, id => throw (.endlessType id)
  | depth + 1, id => do
      match ← fetch id with
      | .typevar _ => return (mapping.lookup id).getD id
      | .array length element => do
          array length (← substituteWithin mapping depth element)
      | .tuple elements => do
          tuple (← elements.mapM (substituteWithin mapping depth))
      | .wrap wrapper inner => do
          wrap wrapper (← substituteWithin mapping depth inner)
      | .applied head args => do
          instantiate head (← args.mapM (substituteWithin mapping depth))
      | .scalar _ | .void | .unknown | .object _ | .distinct .. => return id

/-- Replace type variables in the spelling of a type.  An empty substitution
leaves every id alone, known or not. -/
def substitute (mapping : Substitution) (id : TypeId) : TableM TypeId := do
  if mapping.isEmpty then
    return id
  else
    substituteWithin mapping ((← get).size + 1) id

/-- Substitute in the fields and the base of a body. -/
def substituteBody (mapping : Substitution) (body : Body) : TableM Body := do
  let fields ← body.fields.mapM fun field => do
    return { field with type := ← substitute mapping field.type }
  let base ← body.base.mapM (substitute mapping)
  return ⟨fields, base⟩

/-- The body of an object or of an instance.  Other types have an empty one. -/
def body (id : TypeId) : TableM Body := do
  match ← fetch id with
  | .object object => return object.body
  | .applied head args =>
      match ((← get).cell? id).bind Cell.body with
      | some known => return known
      | none =>
          match ← fetch head with
          | .object object => do
              let result ← substituteBody (object.params.zip args) object.body
              modify (·.modifyCell id fun cell => { cell with body := some result })
              return result
          | _ => return {}
  | _ => return {}

/-- The constituents of a type, in the order declared and its base first. -/
def constituents (id : TypeId) : TableM (List Slot) := do
  match ← fetch id with
  | .object _ | .applied .. => return (← body id).slots
  | .distinct _ underlying _ => return [⟨.underlying, underlying⟩]
  | .array length element => return [⟨.element (some length), element⟩]
  | .wrap .seq element => return [⟨.element none, element⟩]
  | .wrap _ inner => return [⟨.pointee, inner⟩]
  | .tuple elements =>
      return elements.zipIdx.map fun (element, index) => ⟨.tupleElement index, element⟩
  | .scalar _ | .void | .unknown | .typevar _ => return []

/-- The type of a field, looked for in a type and then along its bases, which
are followed at most `fuel` times. -/
def fieldTypeFrom (name : String) : (fuel : Nat) → (seen : List TypeId) → TypeId →
    TableM (Option TypeId)
  | 0, _, _ => throw .exhausted
  | fuel + 1, seen, id =>
      if id ∈ seen then
        return none
      else do
        let found ← body id
        match found.fields.find? (·.name = name), found.base with
        | some field, _ => return some field.type
        | none, some base => fieldTypeFrom name fuel (id :: seen) base
        | none, none => return none

/-- The type of a field of an object, bases included.  A chain of bases that
comes back to a type seen before ends there. -/
def fieldType? (fuel : Nat) (id : TypeId) (name : String) : TableM (Option TypeId) :=
  fieldTypeFrom name fuel [] id

end TableM
end LifecycleHooks

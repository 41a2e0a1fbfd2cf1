import LifecycleHooks.Fault
import LifecycleHooks.Types.Basic

/-!
# The type table

A table hands out type ids in order, starting at one.  Declared types get a fresh
id each; a structural type or an instance gets one id for all its occurrences.
An object is declared first and given its body later, so that bodies may refer to
each other.  With each type the table remembers the nesting depth and, for an
instance, the body once they have been worked out; giving an object a new body
drops the bodies remembered for its instances.
-/

namespace LifecycleHooks

/-- A type with what has been worked out about it. -/
structure Cell where
  type : TypeDef
  depth : Option Nat := none
  body : Option Body := none
deriving DecidableEq, Repr

/-- All types made so far, and the ids of the built-in ones. -/
structure TypeTable where
  cells : Array Cell := #[]
  int? : Option TypeId := none
  bool? : Option TypeId := none
  void? : Option TypeId := none
  unknown? : Option TypeId := none
deriving Repr

/-- A computation on a type table that can fail. -/
abbrev TableM := Attempt TypeTable

namespace TypeTable

/-- The number of types in a table. -/
def size (table : TypeTable) : Nat := table.cells.size

/-- The id that the next new type gets. -/
def nextId (table : TypeTable) : TypeId := table.size + 1

/-- All ids handed out so far. -/
def ids (table : TypeTable) : List TypeId :=
  (List.range table.size).map fun (index : Nat) => (index : Int) + 1

/-- The cell of an id, if it was handed out. -/
def cell? (table : TypeTable) (id : TypeId) : Option Cell :=
  if 1 ≤ id then table.cells[(id - 1).toNat]? else none

/-- The definition of a type, if its id was handed out. -/
def get? (table : TypeTable) (id : TypeId) : Option TypeDef :=
  (table.cell? id).map Cell.type

/-- The definition of a type. -/
def get (table : TypeTable) (id : TypeId) : Except Fault TypeDef :=
  match table.get? id with
  | some type => .ok type
  | none => .error (.unknownId id)

/-- Change the cell of an id. -/
def modifyCell (table : TypeTable) (id : TypeId) (change : Cell → Cell) : TypeTable :=
  if 1 ≤ id then { table with cells := table.cells.modify (id - 1).toNat change } else table

/-- Add a type under a fresh id. -/
def add (table : TypeTable) (type : TypeDef) : TypeId × TypeTable :=
  (table.nextId, { table with cells := table.cells.push { type := type } })

/-- The id of a type that is determined by its parts, if it was made before. -/
def find? (table : TypeTable) (type : TypeDef) : Option TypeId :=
  (table.cells.findIdx? (·.type = type)).map fun (index : Nat) => (index : Int) + 1

@[simp]
theorem size_add (table : TypeTable) (type : TypeDef) :
    (table.add type).2.size = table.size + 1 := by
  simp [add, size]

end TypeTable

namespace TableM

/-- The definition of a type. -/
def fetch (id : TypeId) : TableM TypeDef := do
  Attempt.ofExcept ((← get).get id)

/-- Add a type under a fresh id. -/
def add (type : TypeDef) : TableM TypeId := modifyGet (·.add type)

/-- The one id of a type that is determined by its parts. -/
def intern (type : TypeDef) : TableM TypeId := do
  match (← get).find? type with
  | some id => return id
  | none => add type

/-- The id of a built-in type, which is made on first use. -/
def builtIn (known : TypeTable → Option TypeId)
    (remember : TypeId → TypeTable → TypeTable) (type : TypeDef) : TableM TypeId := do
  match known (← get) with
  | some id => return id
  | none => do
      let id ← add type
      modify (remember id)
      return id

/-- The type of integers. -/
def int : TableM TypeId :=
  builtIn (·.int?) (fun id table => { table with int? := some id }) (.scalar "Int")

/-- The type of truth values. -/
def bool : TableM TypeId :=
  builtIn (·.bool?) (fun id table => { table with bool? := some id }) (.scalar "Bool")

/-- The type of procedures that give no result. -/
def void : TableM TypeId :=
  builtIn (·.void?) (fun id table => { table with void? := some id }) .void

/-- The type that stands in for one that could not be found. -/
def unknown : TableM TypeId :=
  builtIn (·.unknown?) (fun id table => { table with unknown? := some id }) .unknown

/-- A new scalar type. -/
def scalar (name : String) : TableM TypeId := add (.scalar name)

/-- A new type variable. -/
def typevar (name : String) : TableM TypeId := add (.typevar name)

/-- A new object type without a body.  Its type parameters get the ids that
follow its own. -/
def declareObject (name : String) (params : List String) (span : Span) : TableM TypeId := do
  let id := (← get).nextId
  let paramIds := (List.range params.length).map fun (index : Nat) => id + 1 + (index : Int)
  let _ ← add (.object { name := name, params := paramIds, body := {}, span := span })
  for param in params do
    let _ ← typevar param
  return id

/-- A new distinct type over an underlying one. -/
def declareDistinct (name : String) (underlying : TypeId) (span : Span) : TableM TypeId :=
  add (.distinct name underlying span)

/-- A fixed-length array. -/
def array (length : Int) (element : TypeId) : TableM TypeId := intern (.array length element)

/-- A tuple. -/
def tuple (elements : List TypeId) : TableM TypeId := intern (.tuple elements)

/-- A type made by a one-operand constructor. -/
def wrap (wrapper : Wrapper) (inner : TypeId) : TableM TypeId := intern (.wrap wrapper inner)

end TableM

namespace TypeTable

/-- The name that a type goes by, or that of its outermost constructor. -/
def ownName (table : TypeTable) (id : TypeId) : Except Fault String := do
  match ← table.get id with
  | .scalar name => return name
  | .void => return "Void"
  | .unknown => return "Unknown"
  | .typevar name => return name
  | .object object => return object.name
  | .distinct name .. => return name
  | .applied head _ =>
      match ← table.get head with
      | .object object => return object.name
      | _ => throw (.unknownId head)
  | .array .. => return "array"
  | .tuple _ => return "tuple"
  | .wrap wrapper _ => return wrapper.word

/-- The place of the declaration of a type.  Only nominal types have one. -/
def declaredAt (table : TypeTable) (id : TypeId) : Except Fault Span := do
  match ← table.get id with
  | .object object => return object.span
  | .distinct _ _ span => return span
  | .applied head _ =>
      match ← table.get head with
      | .object object => return object.span
      | _ => throw (.unknownId head)
  | _ => return {}

end TypeTable

namespace TableM

/-- The instance of a generic object for the given arguments. -/
def instantiate (head : TypeId) (args : List TypeId) : TableM TypeId := do
  let params := (← fetch head).typeParams
  let name ← Attempt.ofExcept ((← get).ownName head)
  if params.isEmpty then
    throw (.notGeneric name)
  else if args.length ≠ params.length then
    throw (.typeArity name params.length args.length)
  else
    intern (.applied head args)

/-- Whether a type is an instance of the given head. -/
def isInstanceOf (head : TypeId) : TypeDef → Bool
  | .applied other _ => other = head
  | _ => false

/-- Give an object its body.  The bodies remembered for its instances are
dropped. -/
def defineObject (id : TypeId) (body : Body) : TableM Unit := do
  match ← fetch id with
  | .object object =>
      modify fun table =>
        let table := table.modifyCell id fun cell =>
          { cell with type := .object { object with body := body } }
        { table with
          cells := table.cells.map fun cell =>
            if isInstanceOf id cell.type then { cell with body := none } else cell }
  | _ => do
      let name ← Attempt.ofExcept ((← get).ownName id)
      throw (.bodyOfNonObject name)

end TableM
end LifecycleHooks

import LifecycleHooks.Source.Span
import LifecycleHooks.Surface.Tree

/-!
# Types

A type is known by its id, a number handed out by the table that holds its
definition.  Scalars, objects, distinct types and type variables are new with
each declaration; the structural types and the instances of generic objects are
determined by their parts.  The constituents of a type are reached through slots.
-/

namespace LifecycleHooks

/-- The number by which a table knows a type. -/
abbrev TypeId := Int

/-- A named field of an object. -/
structure Field where
  name : String
  type : TypeId
deriving DecidableEq, Repr

/-- The body of an object: its fields in the order declared, and its base. -/
structure Body where
  fields : List Field := []
  base : Option TypeId := none
deriving DecidableEq, Repr

/-- A declared object type.  It is generic when it has type parameters. -/
structure ObjectType where
  name : String
  params : List TypeId
  body : Body
  span : Span
deriving DecidableEq, Repr

/-- What a type is. -/
inductive TypeDef where
  | scalar (name : String)
  | void
  | unknown
  | typevar (name : String)
  | object (object : ObjectType)
  | distinct (name : String) (underlying : TypeId) (span : Span)
  | applied (head : TypeId) (args : List TypeId)
  | array (length : Int) (element : TypeId)
  | tuple (elements : List TypeId)
  | wrap (wrapper : Wrapper) (inner : TypeId)
deriving DecidableEq, Repr

/-- The kinds of types. -/
inductive TypeKind where
  | scalar | void | unknown | typevar | object | distinct | applied | array | tuple
  | wrap (wrapper : Wrapper)
deriving DecidableEq, Repr

/-- The two kinds of storage that a value can point to. -/
inductive Indirection where
  | ref
  | ptr
deriving DecidableEq, Repr

namespace Indirection

/-- The spelling of an indirection. -/
def word : Indirection → String
  | .ref => "ref"
  | .ptr => "ptr"

end Indirection

namespace Wrapper

/-- The indirection that a one-operand constructor makes, if it makes one. -/
def indirection? : Wrapper → Option Indirection
  | .ref => some .ref
  | .ptr => some .ptr
  | .seq | .var | .lent => none

/-- Whether a one-operand constructor is a parameter mode. -/
def isParamMode : Wrapper → Bool
  | .var | .lent => true
  | .seq | .ref | .ptr => false

end Wrapper

namespace TypeDef

/-- The kind of a type. -/
def kind : TypeDef → TypeKind
  | .scalar _ => .scalar
  | .void => .void
  | .unknown => .unknown
  | .typevar _ => .typevar
  | .object _ => .object
  | .distinct .. => .distinct
  | .applied .. => .applied
  | .array .. => .array
  | .tuple _ => .tuple
  | .wrap wrapper _ => .wrap wrapper

/-- The types that a type is made from, a generic head included. -/
def parts : TypeDef → List TypeId
  | .scalar _ | .void | .unknown | .typevar _ | .object _ => []
  | .distinct _ underlying _ => [underlying]
  | .applied head args => head :: args
  | .array _ element => [element]
  | .tuple elements => elements
  | .wrap _ inner => [inner]

/-- The types that occur in the spelling of a type: its parts, unless the type
goes by a name of its own. -/
def operands : TypeDef → List TypeId
  | .scalar _ | .void | .unknown | .typevar _ | .object _ | .distinct .. => []
  | .applied _ args => args
  | .array _ element => [element]
  | .tuple elements => elements
  | .wrap _ inner => [inner]

/-- The type parameters of a generic object. -/
def typeParams : TypeDef → List TypeId
  | .object declared => declared.params
  | _ => []

/-- The indirection that a type is, if it is one. -/
def indirection? : TypeDef → Option Indirection
  | .wrap wrapper _ => wrapper.indirection?
  | _ => none

/-- Whether a type is nominal: an object, a distinct type or an instance. -/
def isNominal : TypeDef → Bool
  | .object _ | .distinct .. | .applied .. => true
  | _ => false

/-- What a reference, a pointer or a parameter mode leads to. -/
def pointee? : TypeDef → Option TypeId
  | .wrap .seq _ => none
  | .wrap _ inner => some inner
  | _ => none

/-- Whether a type is determined by its parts. -/
def isStructural : TypeDef → Bool
  | .applied .. | .array .. | .tuple _ | .wrap .. => true
  | _ => false

end TypeDef

/-- How a constituent is reached from its owner.  The elements of an array are
counted, those of a sequence are not. -/
inductive Step where
  | base
  | field (name : String)
  | tupleElement (index : Nat)
  | element (count : Option Int)
  | underlying
  | pointee
deriving DecidableEq, Repr

/-- A constituent of a type. -/
structure Slot where
  step : Step
  type : TypeId
deriving DecidableEq, Repr

/-- The slots of the body of an object: its base first, then its fields. -/
def Body.slots (body : Body) : List Slot :=
  (body.base.toList.map fun base => ⟨.base, base⟩) ++
    body.fields.map fun field => ⟨.field field.name, field.type⟩

end LifecycleHooks

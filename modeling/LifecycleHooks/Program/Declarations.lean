import LifecycleHooks.Source.Diagnostic
import LifecycleHooks.Surface.Tree
import LifecycleHooks.Types.Instantiation

/-!
# Declared types

The types of a program are declared in three rounds: first all objects, so that
they may refer to each other in any order, then the distinct types, each of which
sees the objects and the distinct types before it, and then the bodies of the
objects.  A name that is taken, a type that is unknown and a wrong number of
arguments are reported, and the unknown type takes the place of what is missing.
-/

namespace LifecycleHooks

/-- The declared types of a program, by name, and what was reported. -/
structure Declarations where
  table : TypeTable := {}
  names : List (String × TypeId) := []
  diagnostics : List Diagnostic := []
deriving Repr

/-- A computation on the declarations of a program that can fail. -/
abbrev DeclareM := Attempt Declarations

/-- The names of the built-in types. -/
def builtInNames : List String := ["Int", "Bool", "Void"]

/-- The type variables in scope, by name.  Of two with the same name the later
one counts, so it stands first. -/
abbrev TypeVars := List (String × TypeId)

/-- The type variables of a declaration with the given parameter names. -/
def TypeVars.of (names : List String) (ids : List TypeId) : TypeVars :=
  (names.zip ids).reverse

namespace DeclareM

/-- Run a computation on the type table. -/
def onTable {Result : Type} (action : TableM Result) : DeclareM Result :=
  Attempt.onPart Declarations.table
    (fun table declarations => { declarations with table := table }) action

/-- Ask the type table a question. -/
def ask {Result : Type} (question : TypeTable → Except Fault Result) : DeclareM Result := do
  Attempt.ofExcept (question (← get).table)

/-- Report an error at a place of a file. -/
def report (file : Option String) (code : Code) (place : Position) (message : String) :
    DeclareM Unit :=
  modify fun declarations =>
    { declarations with
      diagnostics := declarations.diagnostics ++
        [{ phase := .typecheck, code := some code, message := message,
           span := place.toSpan file }] }

/-- Give a name to a type. -/
def name (spelling : String) (id : TypeId) : DeclareM Unit :=
  modify fun declarations =>
    { declarations with names := declarations.names ++ [(spelling, id)] }

mutual

/-- The type that is spelled.  A type variable in scope takes precedence over a
declared type, when it has no arguments. -/
def resolveType (file : Option String) (typeVars : TypeVars) :
    Surface.TypeExpr → DeclareM TypeId
  | .array _ length element => do
      let element ← resolveType file typeVars element
      onTable (TableM.array length element)
  | .tuple _ elements => do
      let elements ← resolveTypes file typeVars elements
      onTable (TableM.tuple elements)
  | .wrap _ wrapper inner => do
      let inner ← resolveType file typeVars inner
      onTable (TableM.wrap wrapper inner)
  | .named place name args => do
      match (if args.isEmpty then typeVars.lookup name else none) with
      | some typeVar => return typeVar
      | none =>
          match (← get).names.lookup name with
          | none => do
              report file .unknownType place s!"unknown type '{name}'"
              onTable TableM.unknown
          | some id => do
              let expected := (← ask (·.get id)).typeParams.length
              if args.length ≠ expected then do
                report file .arityMismatch place
                  s!"type '{name}' expects {expected} type argument(s), got {args.length}"
                onTable TableM.unknown
              else if args.isEmpty then
                return id
              else do
                let args ← resolveTypes file typeVars args
                onTable (TableM.instantiate id args)

/-- The types that are spelled, in order. -/
def resolveTypes (file : Option String) (typeVars : TypeVars) :
    List Surface.TypeExpr → DeclareM (List TypeId)
  | [] => return []
  | first :: rest => do
      let id ← resolveType file typeVars first
      return id :: (← resolveTypes file typeVars rest)

end

/-- Whether a name is free.  One that is taken is reported. -/
def checkFresh (file : Option String) (name : String) (place : Position) : DeclareM Bool := do
  if ((← get).names.lookup name).isSome then do
    report file .duplicateDeclaration place s!"type '{name}' is already declared"
    return false
  else
    return true

/-- Declare the objects among the given types, and give each with its id. -/
def declareObjects (file : Option String) :
    List Surface.TypeDecl → DeclareM (List (Surface.ObjectDecl × TypeId))
  | [] => return []
  | .object decl :: rest => do
      if ← checkFresh file decl.name decl.place then do
        let id ← onTable
          (TableM.declareObject decl.name decl.typeParams (decl.place.toSpan file))
        name decl.name id
        return (decl, id) :: (← declareObjects file rest)
      else
        declareObjects file rest
  | .distinct _ :: rest => declareObjects file rest

/-- Declare the distinct types among the given types. -/
def declareDistincts (file : Option String) : List Surface.TypeDecl → DeclareM Unit
  | [] => return ()
  | .object _ :: rest => declareDistincts file rest
  | .distinct decl :: rest => do
      if ← checkFresh file decl.name decl.place then do
        let underlying ← resolveType file [] decl.underlying
        let id ← onTable
          (TableM.declareDistinct decl.name underlying (decl.place.toSpan file))
        name decl.name id
      declareDistincts file rest

/-- The base of an object, which has to be an object too. -/
def resolveBase (file : Option String) (typeVars : TypeVars) (owner : String) :
    Option Surface.TypeExpr → DeclareM (Option TypeId)
  | none => return none
  | some spelled => do
      let id ← resolveType file typeVars spelled
      match (← ask (·.get id)).kind with
      | .object | .applied => return some id
      | .unknown => return none
      | _ => do
          let spelling ← ask (·.spell id)
          report file .unknownType spelled.place
            s!"base of '{owner}' must be an object type, got '{spelling}'"
          return none

/-- The fields of an object.  Of two with the same name only the first counts. -/
def resolveFields (file : Option String) (typeVars : TypeVars) (owner : String) :
    (seen : List String) → List Surface.Member → DeclareM (List Field)
  | _, [] => return []
  | seen, member :: rest => do
      if member.name ∈ seen then do
        report file .duplicateDeclaration member.place
          s!"duplicate field '{member.name}' in '{owner}'"
        resolveFields file typeVars owner seen rest
      else do
        let type ← resolveType file typeVars member.type
        return ⟨member.name, type⟩ ::
          (← resolveFields file typeVars owner (member.name :: seen) rest)

/-- Give a declared object its body. -/
def defineObject (file : Option String) (decl : Surface.ObjectDecl) (id : TypeId) :
    DeclareM Unit := do
  let typeVars := TypeVars.of decl.typeParams (← ask (·.get id)).typeParams
  let base ← resolveBase file typeVars decl.name decl.base
  let fields ← resolveFields file typeVars decl.name [] decl.fields
  onTable (TableM.defineObject id ⟨fields, base⟩)

/-- Name the built-in types. -/
def declareBuiltIns : DeclareM Unit := do
  name "Int" (← onTable TableM.int)
  name "Bool" (← onTable TableM.bool)
  name "Void" (← onTable TableM.void)

/-- Declare all types of a program, and give those that are not built in. -/
def declareAll (file : Option String) (decls : List Surface.TypeDecl) :
    DeclareM (List (String × TypeId)) := do
  let objects ← declareObjects file decls
  declareDistincts file decls
  objects.forM fun (decl, id) => defineObject file decl id
  return (← get).names.filter fun entry => entry.1 ∉ builtInNames

end DeclareM
end LifecycleHooks

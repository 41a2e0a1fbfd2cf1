import LifecycleHooks.Types.Table

/-!
# Questions about types

The spelling of a type, whether it holds type variables, the declaration that a
nominal type goes back to, and how deeply its constructors nest.  A type whose
operands were made before it ends after at most as many levels as the table has
types; the questions give up beyond that, since then a type is a part of itself.
-/

namespace LifecycleHooks

/-- Items with commas between them. -/
def commaList (items : List String) : String := ", ".intercalate items

namespace TypeTable

/-- The spelling of a type whose operands nest less than `depth` deep. -/
def spellWithin (table : TypeTable) : (depth : Nat) → TypeId → Except Fault String
  | 0, id => .error (.endlessType id)
  | depth + 1, id => do
      match ← table.get id with
      | .array length element => do
          let inner ← table.spellWithin depth element
          return s!"array[{length}, {inner}]"
      | .tuple elements => do
          let inner ← elements.mapM (table.spellWithin depth)
          return s!"tuple[{commaList inner}]"
      | .wrap .seq element => do
          let inner ← table.spellWithin depth element
          return s!"seq[{inner}]"
      | .wrap wrapper operand => do
          let inner ← table.spellWithin depth operand
          return s!"{wrapper.word} {inner}"
      | .applied _ args => do
          let name ← table.ownName id
          let inner ← args.mapM (table.spellWithin depth)
          return s!"{name}[{commaList inner}]"
      | .object object =>
          if object.params.isEmpty then
            return object.name
          else do
            let inner ← object.params.mapM table.ownName
            return s!"{object.name}[{commaList inner}]"
      | _ => table.ownName id

/-- The spelling of a type in diagnostics and dumps. -/
def spell (table : TypeTable) (id : TypeId) : Except Fault String :=
  table.spellWithin (table.size + 1) id

/-- Whether a type is nominal. -/
def isNominal (table : TypeTable) (id : TypeId) : Except Fault Bool :=
  return (← table.get id).isNominal

/-- The declaration that a nominal type goes back to: the generic object of an
instance, or the type itself. -/
def head? (table : TypeTable) (id : TypeId) : Except Fault (Option TypeId) := do
  match ← table.get id with
  | .applied head _ => return some head
  | .object _ | .distinct .. => return some id
  | _ => return none

/-- What a reference, a pointer or a parameter mode leads to. -/
def pointee? (table : TypeTable) (id : TypeId) : Except Fault (Option TypeId) :=
  return (← table.get id).pointee?

/-- Whether type variables occur in the spelling of a type whose operands nest
less than `depth` deep. -/
def hasTypevarsWithin (table : TypeTable) : (depth : Nat) → TypeId → Except Fault Bool
  | 0, id => .error (.endlessType id)
  | depth + 1, id => do
      match ← table.get id with
      | .typevar _ => return true
      | type => type.operands.anyM (table.hasTypevarsWithin depth)

/-- Whether type variables occur in the spelling of a type. -/
def hasTypevars (table : TypeTable) (id : TypeId) : Except Fault Bool :=
  table.hasTypevarsWithin (table.size + 1) id

end TypeTable

namespace TableM

/-- The nesting depth of a type whose operands nest less than `depth` deep. -/
def nestingWithin : (depth : Nat) → TypeId → TableM Nat
  | 0, id => throw (.endlessType id)
  | depth + 1, id => do
      match ((← get).cell? id).bind Cell.depth with
      | some known => return known
      | none => do
          let operands := (← fetch id).operands
          let inner ← operands.mapM (nestingWithin depth)
          let result := if operands.isEmpty then 0 else inner.foldl max 0 + 1
          modify (·.modifyCell id fun cell => { cell with depth := some result })
          return result

/-- How deeply type constructors nest in the spelling of a type.  A type that
goes by a name alone has depth zero. -/
def nesting (id : TypeId) : TableM Nat := do
  nestingWithin ((← get).size + 1) id

end TableM
end LifecycleHooks

import LifecycleHooks.Hook.Binder
import LifecycleHooks.Program.Bodies

/-!
# Lowered programs

A program is lowered by declaring its types, collecting the signatures of its
procedures and lowering their bodies.  Procedures named between backticks are
hooks; of several other procedures with the same name only the first counts.
-/

namespace LifecycleHooks

/-- A procedure with its signature and the types of its bindings. -/
structure LoweredProcedure where
  procedure : Procedure
  signature : Signature
  bindingTypes : BindingTypes
deriving Repr

/-- A program whose names are resolved. -/
structure LoweredProgram where
  table : TypeTable
  types : List (String × TypeId)
  hooks : List HookDecl
  procedures : List LoweredProcedure
  diagnostics : List Diagnostic
deriving Repr

/-- What is collected from the heads of procedures: the declared hooks, the
procedures that can be called by name, and all that are to be lowered. -/
structure Heads where
  hooks : List HookDecl := []
  signatures : List (String × Signature) := []
  procedures : List (Surface.ProcDecl × Signature) := []

namespace DeclareM

/-- Make a type variable for each of the given names. -/
def declareTypeVars (names : List String) : DeclareM (List TypeId) :=
  names.mapM fun name => onTable (TableM.typevar name)

/-- The signature of a procedure. -/
def resolveSignature (file : Option String) (proc : Surface.ProcDecl) :
    DeclareM Signature := do
  let ids ← declareTypeVars proc.typeParams
  let typeVars := TypeVars.of proc.typeParams ids
  let params ← resolveTypes file typeVars (proc.params.map Surface.Member.type)
  let result ← match proc.result with
    | some spelled => resolveType file typeVars spelled
    | none => onTable TableM.void
  return { name := proc.name, params := params, result := result, typeVars := ids,
           isHook := proc.isHook, span := proc.place.toSpan file }

/-- The declared hook with the given signature. -/
def hookDecl (signature : Signature) : DeclareM HookDecl := do
  let params ← signature.params.mapM fun param => ask (·.spell param)
  return { name := signature.name
           impl := s!"`{signature.name}`({commaList params})"
           params := signature.params
           result := signature.result
           span := signature.span }

/-- Collect what the heads of procedures declare. -/
def collectHeads (file : Option String) : Heads → List Surface.ProcDecl → DeclareM Heads
  | heads, [] => return heads
  | heads, proc :: rest => do
      let signature ← resolveSignature file proc
      if proc.isHook then do
        let hook ← hookDecl signature
        collectHeads file
          { heads with
            hooks := heads.hooks ++ [hook]
            procedures := heads.procedures ++ [(proc, signature)] } rest
      else if (heads.signatures.lookup proc.name).isSome then do
        report file .duplicateDeclaration proc.place
          s!"procedure '{proc.name}' is already declared"
        collectHeads file heads rest
      else
        collectHeads file
          { heads with
            signatures := heads.signatures ++ [(proc.name, signature)]
            procedures := heads.procedures ++ [(proc, signature)] } rest

/-- Lower the bodies of procedures in order.  Bindings are numbered anew in
each. -/
def lowerBodies (file : Option String) (fuel : Nat) (signatures : List (String × Signature)) :
    List (Surface.ProcDecl × Signature) → DeclareM (List LoweredProcedure)
  | [] => return []
  | (proc, signature) :: rest => do
      let context : BodyContext :=
        { file := file
          typeVars := TypeVars.of proc.typeParams signature.typeVars
          signatures := signatures
          fuel := fuel }
      let lower : BodyM LoweredProcedure := do
        let procedure ← BodyM.lowerProcedure context proc signature
        return ⟨procedure, signature, (← get).bindingTypes⟩
      let lowered ← fun declarations =>
        match lower { declarations := declarations } with
        | .ok lowered state => .ok lowered state.declarations
        | .error fault state => .error fault state.declarations
      return lowered :: (← lowerBodies file fuel signatures rest)

end DeclareM

namespace LoweredProgram

/-- Lower a program.  The look-up of a field follows at most `fuel` bases. -/
def ofProgram (file : Option String) (fuel : Nat) (program : Surface.Program) :
    Except Fault LoweredProgram :=
  let lower : DeclareM (List (String × TypeId) × Heads × List LoweredProcedure) := do
    DeclareM.declareBuiltIns
    let types ← DeclareM.declareAll file program.types
    let heads ← DeclareM.collectHeads file {} program.procs
    let procedures ← DeclareM.lowerBodies file fuel heads.signatures heads.procedures
    return (types, heads, procedures)
  match lower {} with
  | .ok (types, heads, procedures) declarations =>
      .ok { table := declarations.table
            types := types
            hooks := heads.hooks
            procedures := procedures
            diagnostics := declarations.diagnostics }
  | .error fault _ => .error fault

end LoweredProgram
end LifecycleHooks

import LifecycleHooks.Source.Span

/-!
# Diagnostics

Everything that is wrong with an analysed program is told as a diagnostic: a
message with a code, the phase that found it, a place and further notes.  Every
diagnostic is an error.
-/

namespace LifecycleHooks

/-- The kinds of error that a diagnostic can stand for. -/
inductive Code where
  | duplicateBinding
  | invalidSignature
  | receiverNotNominal
  | conflictingIndirection
  | unresolvableRecursion
  | destructibleContext
  | missingExitEdge
  | syntaxError
  | unknownName
  | unknownType
  | arityMismatch
  | duplicateDeclaration
  | loopControlOutsideLoop
deriving DecidableEq, Repr

namespace Code

/-- The stable spelling of a code. -/
def text : Code → String
  | .duplicateBinding => "E-HOOK-DUPLICATE"
  | .invalidSignature => "E-HOOK-SIGNATURE"
  | .receiverNotNominal => "E-HOOK-RECEIVER"
  | .conflictingIndirection => "E-HOOK-INDIRECTION"
  | .unresolvableRecursion => "E-LIFT-RECURSIVE"
  | .destructibleContext => "E-DESTROY-CONTEXT"
  | .missingExitEdge => "E-ICE-SCOPE-EXIT"
  | .syntaxError => "E-PARSE"
  | .unknownName => "E-UNKNOWN-NAME"
  | .unknownType => "E-UNKNOWN-TYPE"
  | .arityMismatch => "E-ARITY"
  | .duplicateDeclaration => "E-DUPLICATE-DECL"
  | .loopControlOutsideLoop => "E-LOOP-CONTROL"

end Code

/-- The phases that report diagnostics. -/
inductive Phase where
  | parser
  | typecheck
  | bind
  | resolve
  | context
  | scopeExit
  | driver
deriving DecidableEq, Repr

namespace Phase

/-- The stable spelling of a phase. -/
def text : Phase → String
  | .parser => "parser"
  | .typecheck => "typecheck"
  | .bind => "bind"
  | .resolve => "resolve"
  | .context => "context"
  | .scopeExit => "scope-exit"
  | .driver => "driver"

end Phase

/-- One error found in a program.  A file that cannot be read has no code. -/
structure Diagnostic where
  phase : Phase
  code : Option Code
  message : String
  span : Span := {}
  notes : List String := []
deriving DecidableEq, Repr

/-- The severity that every diagnostic is printed with. -/
def Diagnostic.severity : String := "error"

end LifecycleHooks

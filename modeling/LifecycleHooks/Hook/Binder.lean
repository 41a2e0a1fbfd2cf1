import LifecycleHooks.Hook.Registry
import LifecycleHooks.Source.Diagnostic
import LifecycleHooks.Types.Queries

/-!
# Binding hooks

A declared hook is checked against the shape of its operation and bound to the
type it is for:

* `=` takes `var T` and then `T` or `lent T`, and gives no result;
* `=destroy` takes `T` by value and gives no result;
* `=deepCopy` takes `ref T` or `ptr T` and gives the same type back.

The type `T` has to be nominal.  A hook for an instance whose arguments are all
type variables is bound to the generic object.  A declaration that is rejected
gives one diagnostic and counts as absent.
-/

namespace LifecycleHooks

/-- A declared procedure that is named as a hook. -/
structure HookDecl where
  name : String
  impl : String
  params : List TypeId
  result : TypeId
  span : Span := {}
deriving DecidableEq, Repr

/-- Why a declared hook is not bound. -/
inductive Rejection where
  /-- The name is that of no operation. -/
  | unknownOperator (name : String)
  /-- The operation takes another number of parameters. -/
  | paramCount (kind : OpKind) (count : Nat)
  /-- The first parameter of an assignment is no `var` type. -/
  | assignTarget (param : TypeId)
  /-- The second parameter of an assignment differs from the first. -/
  | assignSource (receiver param : TypeId)
  /-- The parameter of a destructor is not taken by value. -/
  | destroyByReference (param : TypeId)
  /-- The parameter of a deep copy is no `ref` or `ptr` type. -/
  | copyParam (param : TypeId)
  /-- The result of a deep copy is not the type of its parameter. -/
  | copyResult (param result : TypeId)
  /-- The operation gives no result. -/
  | unexpectedResult (kind : OpKind) (result : TypeId)
  /-- The type is not nominal. -/
  | receiverNotNominal (kind : OpKind) (receiver : TypeId)
  /-- A deep copy is bound through the other indirection already. -/
  | otherIndirection (entry existing : HookEntry)
  /-- The operation is bound already. -/
  | duplicate (entry existing : HookEntry)
deriving DecidableEq, Repr

namespace Rejection

/-- The code of a rejection. -/
def code : Rejection → Code
  | .receiverNotNominal .. => .receiverNotNominal
  | .otherIndirection .. => .conflictingIndirection
  | .duplicate .. => .duplicateBinding
  | _ => .invalidSignature

/-- The word for the indirection of a deep copy. -/
def indirectionWord : Option Indirection → String
  | some .ptr => "ptr"
  | _ => "ref"

/-- The message of a rejection. -/
def message (table : TypeTable) : Rejection → Except Fault String
  | .unknownOperator name =>
      return s!"unknown lifecycle operator `{name}` (expected `=`, `=destroy` or `=deepCopy`)"
  | .paramCount .assign count =>
      return s!"`=` takes exactly two parameters (var T, T), got {count}"
  | .paramCount kind count =>
      return s!"`{kind.hookName}` takes exactly one parameter, got {count}"
  | .assignTarget param => do
      let spelled ← table.spell param
      return s!"first parameter of `=` must be `var T`, got '{spelled}'"
  | .assignSource receiver param => do
      let expected ← table.spell receiver
      let spelled ← table.spell param
      return s!"second parameter of `=` must be '{expected}' or 'lent {expected}', got '{spelled}'"
  | .destroyByReference param => do
      let spelled ← table.spell param
      return s!"`=destroy` takes its parameter by value, got '{spelled}'"
  | .copyParam param => do
      let spelled ← table.spell param
      return s!"`=deepCopy` parameter must be a `ref` or `ptr` type, got '{spelled}'"
  | .copyResult param result => do
      let expected ← table.spell param
      let spelled ← table.spell result
      return s!"`=deepCopy` must return its parameter type '{expected}', got '{spelled}'"
  | .unexpectedResult kind result => do
      let spelled ← table.spell result
      return s!"`{kind.hookName}` must not declare a result type, got '{spelled}'"
  | .receiverNotNominal kind receiver => do
      let spelled ← table.spell receiver
      return s!"`{kind.hookName}` receiver '{spelled}' is not an object or distinct type"
  | .otherIndirection entry existing => do
      let target ← table.spell entry.target
      return s!"`=deepCopy` for '{target}' is already bound through " ++
        s!"'{indirectionWord existing.indirection}'; binding it again through " ++
        s!"'{indirectionWord entry.indirection}' is not allowed " ++
        "(introduce a distinct wrapper type)"
  | .duplicate entry _ => do
      let target ← table.spell entry.target
      return s!"duplicate `{entry.kind.hookName}` for '{target}'"

/-- The notes of a rejection: where the hook in the way was declared. -/
def notes (table : TypeTable) : Rejection → Except Fault (List String)
  | .otherIndirection entry existing | .duplicate entry existing => do
      let target ← table.spell entry.target
      return [s!"previous `{entry.kind.hookName}` for '{target}' declared at " ++
        existing.span.render]
  | _ => return []

/-- The diagnostic for a hook that is rejected. -/
def diagnostic (table : TypeTable) (span : Span) (rejection : Rejection) :
    Except Fault Diagnostic := do
  return { phase := .bind
           code := some rejection.code
           message := ← rejection.message table
           span := span
           notes := ← rejection.notes table }

end Rejection

/-- A check of a declared hook, which a rejection cuts short. -/
abbrev HookCheck := ExceptT Rejection (Except Fault)

namespace HookDecl

/-- The type that a hook for the given receiver is bound to. -/
def bindingTarget (table : TypeTable) (kind : OpKind) (receiver : TypeId) :
    HookCheck TypeId := do
  let type ← table.get receiver
  if !type.isNominal then
    throw (.receiverNotNominal kind receiver)
  else
    match type with
    | .applied head args =>
        if ← args.allM fun arg => return (← table.get arg).kind = .typevar then
          return head
        else
          return receiver
    | _ => return receiver

/-- Check that a hook gives no result. -/
def checkNoResult (table : TypeTable) (kind : OpKind) (result : TypeId) : HookCheck Unit := do
  if (← table.get result).kind ≠ .void then
    throw (.unexpectedResult kind result)

/-- Check the declaration of an assignment. -/
def checkAssign (table : TypeTable) (decl : HookDecl) : HookCheck HookEntry :=
  match decl.params with
  | [destination, source] => do
      match ← table.get destination with
      | .wrap .var receiver => do
          let target ← bindingTarget table .assign receiver
          let value ← match ← table.get source with
            | .wrap .lent inner => pure inner
            | _ => pure source
          if value ≠ receiver then
            throw (.assignSource receiver source)
          checkNoResult table .assign decl.result
          return { kind := .assign, target := target, params := decl.params,
                   result := decl.result, impl := decl.impl, span := decl.span }
      | _ => throw (.assignTarget destination)
  | params => throw (.paramCount .assign params.length)

/-- Check the declaration of a destructor. -/
def checkDestroy (table : TypeTable) (decl : HookDecl) : HookCheck HookEntry :=
  match decl.params with
  | [param] => do
      match ← table.get param with
      | .wrap .var _ | .wrap .lent _ => throw (.destroyByReference param)
      | _ => do
          let target ← bindingTarget table .destroy param
          checkNoResult table .destroy decl.result
          return { kind := .destroy, target := target, params := decl.params,
                   result := decl.result, impl := decl.impl, span := decl.span }
  | params => throw (.paramCount .destroy params.length)

/-- Check the declaration of a deep copy. -/
def checkDeepCopy (table : TypeTable) (decl : HookDecl) : HookCheck HookEntry :=
  match decl.params with
  | [param] => do
      let type ← table.get param
      match type.indirection?, type.pointee? with
      | some indirection, some receiver => do
          if decl.result ≠ param then
            throw (.copyResult param decl.result)
          let target ← bindingTarget table .deepCopy receiver
          return { kind := .deepCopy, target := target, params := decl.params,
                   result := decl.result, impl := decl.impl,
                   indirection := some indirection, span := decl.span }
      | _, _ => throw (.copyParam param)
  | params => throw (.paramCount .deepCopy params.length)

/-- Check the declaration of a hook by itself. -/
def check (table : TypeTable) (decl : HookDecl) : HookCheck HookEntry :=
  match OpKind.ofHookName? decl.name with
  | none => throw (.unknownOperator decl.name)
  | some .assign => decl.checkAssign table
  | some .destroy => decl.checkDestroy table
  | some .deepCopy => decl.checkDeepCopy table

/-- Check that no hook stands in the way of a new one. -/
def checkFree (registry : Registry) (entry : HookEntry) : HookCheck Unit :=
  match registry.lookup entry.target entry.kind with
  | none => return ()
  | some existing =>
      if entry.kind = .deepCopy ∧ existing.indirection ≠ entry.indirection then
        throw (.otherIndirection entry existing)
      else
        throw (.duplicate entry existing)

end HookDecl

/-- The registry under construction, with the diagnostics for what was rejected. -/
structure Binder where
  registry : Registry := {}
  diagnostics : List Diagnostic := []
deriving Repr

namespace Binder

/-- Check and bind one declared hook.  A rejected one gives a diagnostic. -/
def bind (table : TypeTable) (decl : HookDecl) : Attempt Binder (Option HookEntry) := do
  let binder ← get
  let checked : HookCheck HookEntry := do
    let entry ← decl.check table
    HookDecl.checkFree binder.registry entry
    return entry
  match ← Attempt.ofExcept checked.run with
  | .error rejection => do
      let diagnostic ← Attempt.ofExcept (rejection.diagnostic table decl.span)
      set { binder with diagnostics := binder.diagnostics ++ [diagnostic] }
      return none
  | .ok entry => do
      let registry ← Attempt.ofExcept (binder.registry.bind entry)
      set { binder with registry := registry }
      return some entry

/-- Bind declared hooks in order. -/
def bindEach (table : TypeTable) : List HookDecl → Attempt Binder Unit
  | [] => return ()
  | decl :: rest => do
      let _ ← bind table decl
      bindEach table rest

/-- Bind declared hooks in order and close the registry. -/
def bindAll (table : TypeTable) (decls : List HookDecl) : Attempt Binder Unit := do
  bindEach table decls
  modify fun binder => { binder with registry := binder.registry.freeze }

end Binder
end LifecycleHooks

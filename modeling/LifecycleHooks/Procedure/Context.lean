import LifecycleHooks.Lifting.Resolution
import LifecycleHooks.Procedure.Sites

/-!
# Where destructible values may appear

A fresh value whose destruction runs a hook needs an owner that lives on: a local
that it initializes, the caller that it is returned to, or the implicit result.
Anywhere else it would be a temporary that nobody destroys, and is reported.  A
policy says which sites are fine and which forms of expression are looked at.
-/

namespace LifecycleHooks

/-- The forms of expression. -/
inductive ExprForm where
  | var
  | integer
  | boolean
  | call
  | field
deriving DecidableEq, Repr

namespace ExprForm

/-- All forms of expression. -/
def all : List ExprForm := [.var, .integer, .boolean, .call, .field]

end ExprForm

/-- The form of an expression. -/
def Expr.form : Expr → ExprForm
  | .var .. => .var
  | .integer .. => .integer
  | .boolean .. => .boolean
  | .call .. => .call
  | .field .. => .field

/-- Which sites may hold destructible values, and which forms are checked. -/
structure ContextPolicy where
  allowed : List ContextSite
  checked : List ExprForm := [.call]
deriving DecidableEq, Repr

namespace ContextPolicy

/-- Calls are checked, and every site with a lasting owner is fine. -/
def standard : ContextPolicy :=
  { allowed := [.varInit, .letInit, .returnValue, .resultAssignment] }

end ContextPolicy

namespace ResolveM

/-- The diagnostic for a destructible value of a type at a site. -/
def contextDiagnostic (expr : Expr) (type : TypeId) (site : ContextSite) :
    ResolveM Diagnostic := do
  let name ← ask (·.spell type)
  return { phase := .context
           code := some .destructibleContext
           message := s!"value of destructible type '{name}' used in {site.words}; " ++
             "bind it with `var`/`let`, return it, or assign it to `result`"
           span := expr.note.span
           notes := [s!"'{name}' has a `=destroy` (declared or lifted)"] }

/-- Check one expression.  An expression that no site is known for stands at some
other place. -/
def checkExpr (hooks : Registry) (fuel : Nat) (policy : ContextPolicy) (sites : Sites)
    (expr : Expr) : ResolveM (Option Diagnostic) := do
  if expr.form ∉ policy.checked then
    return none
  else
    match expr.type with
    | none => return none
    | some type => do
        if ← isDestructible hooks fuel type then
          let site := (sites.lookup expr.id).getD .other
          if site ∈ policy.allowed then
            return none
          else
            return some (← contextDiagnostic expr type site)
        else
          return none

/-- Check every expression of a block. -/
def checkBlock (hooks : Registry) (fuel : Nat) (policy : ContextPolicy) (sites : Sites)
    (block : Block) : ResolveM (List Diagnostic) :=
  block.exprs.filterMapM (checkExpr hooks fuel policy sites)

end ResolveM
end LifecycleHooks

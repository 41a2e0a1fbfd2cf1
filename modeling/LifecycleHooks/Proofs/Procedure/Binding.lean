import LifecycleHooks.Procedure.Numbering
import LifecycleHooks.Proofs.Scope.Execution

/-!
# Bound names

In a body whose names are bound, each declaration gets the next free binding, a
`return` names what its name stands for, and a `break` or `continue` stands inside of
a loop.  Numbering the nodes does not change any of this.
-/

namespace LifecycleHooks

/-- The names that can be seen, each with its binding, the latest first. -/
abbrev Names := List (String × BindingId)

/-- A `return` of a name has the binding that the name stands for. -/
def ReturnsVisible (visible : Names) : Option Expr → Prop
  | some (.var _ name binding) => binding = visible.lookup name
  | _ => True

/-- The names of a fragment are bound, where the next binding to be given and the names
that can be seen are known before the fragment and behind it. -/
inductive Binds : (inLoop : Bool) → (next : BindingId) → (visible : Names) → Fragment →
    (after : BindingId) → (seen : Names) → Prop where
  | declare (inLoop : Bool) (next : BindingId) (visible : Names) (note : Note) (name : String)
      (value : Option Expr) (type : Option TypeId) (mutability : Bool) :
      Binds inLoop next visible
        (.statement (.declare note name value type mutability (some next)))
        (next + 1) ((name, next) :: visible)
  | assign (inLoop : Bool) (next : BindingId) (visible : Names) (note : Note)
      (target value : Expr) :
      Binds inLoop next visible (.statement (.assign note target value)) next visible
  | expr (inLoop : Bool) (next : BindingId) (visible : Names) (note : Note) (expr : Expr) :
      Binds inLoop next visible (.statement (.expr note expr)) next visible
  | spawn (inLoop : Bool) (next : BindingId) (visible : Names) (note : Note) (call : ExprNote)
      (callee : String) (args : List Expr) :
      Binds inLoop next visible (.statement (.spawn note call callee args)) next visible
  | return (inLoop : Bool) (next : BindingId) {visible : Names} (note : Note)
      {value : Option Expr} (named : ReturnsVisible visible value) :
      Binds inLoop next visible (.statement (.return note value)) next visible
  | break (next : BindingId) (visible : Names) (note : Note) :
      Binds true next visible (.statement (.break note)) next visible
  | continue (next : BindingId) (visible : Names) (note : Note) :
      Binds true next visible (.statement (.continue note)) next visible
  | block {inLoop : Bool} {next after : BindingId} {visible seen : Names} {block : Block}
      (inside : Binds inLoop next visible (.block false block) after seen) :
      Binds inLoop next visible (.statement (.block block)) after seen
  | branch {inLoop : Bool} {next after : BindingId} {visible seen : Names} (note : Note)
      (condition : Expr) {yes : Block}
      (inside : Binds inLoop next visible (.block false yes) after seen) :
      Binds inLoop next visible (.statement (.branch note condition yes none)) after seen
  | branchElse {inLoop : Bool} {next middle after : BindingId} {visible between seen : Names}
      (note : Note) (condition : Expr) {yes no : Block}
      (ifYes : Binds inLoop next visible (.block false yes) middle between)
      (ifNo : Binds inLoop middle between (.block false no) after seen) :
      Binds inLoop next visible (.statement (.branch note condition yes (some no))) after seen
  | loop (inLoop : Bool) {next after : BindingId} {visible seen : Names} (note : Note)
      (condition : Expr) {body : Block}
      (inside : Binds true next visible (.block true body) after seen) :
      Binds inLoop next visible (.statement (.loop note condition body)) after seen
  | scope {inLoop : Bool} {next after : BindingId} {visible seen : Names} (isLoopBody : Bool)
      (note : Note) {statements : List Stmt}
      (inside : Binds inLoop next visible (.sequence statements) after seen) :
      Binds inLoop next visible (.block isLoopBody (.mk note statements)) after visible
  | nil (inLoop : Bool) (next : BindingId) (visible : Names) :
      Binds inLoop next visible (.sequence []) next visible
  | cons {inLoop : Bool} {next middle after : BindingId} {visible between seen : Names}
      {statement : Stmt} {statements : List Stmt}
      (before : Binds inLoop next visible (.statement statement) middle between)
      (behind : Binds inLoop middle between (.sequence statements) after seen) :
      Binds inLoop next visible (.sequence (statement :: statements)) after seen

/-- Later names have larger bindings, and the next one is larger than all. -/
def Descending (next : BindingId) (visible : Names) : Prop :=
  (next :: visible.map Prod.snd).Pairwise (· > ·)

theorem Descending.later {next after : BindingId} {visible : Names}
    (descending : Descending next visible) (onwards : next ≤ after) :
    Descending after visible := by
  obtain ⟨above, rest⟩ := List.pairwise_cons.mp descending
  exact List.pairwise_cons.mpr
    ⟨fun binding member => Int.lt_of_lt_of_le (above binding member) onwards, rest⟩

namespace Binds

variable {inLoop : Bool} {next middle after : BindingId} {visible between seen : Names}

theorem append {first second : List Stmt}
    (before : Binds inLoop next visible (.sequence first) middle between)
    (behind : Binds inLoop middle between (.sequence second) after seen) :
    Binds inLoop next visible (.sequence (first ++ second)) after seen := by
  induction first generalizing next visible with
  | nil =>
      cases before
      exact behind
  | cons statement first ih =>
      cases before with
      | cons here later => exact .cons here (ih later)

/-- Behind a block the same names are visible as before it. -/
theorem seen_of_block {isLoopBody : Bool} {block : Block}
    (binds : Binds inLoop next visible (.block isLoopBody block) after seen) : seen = visible := by
  cases binds
  rfl

theorem next_le {fragment : Fragment} (binds : Binds inLoop next visible fragment after seen) :
    next ≤ after := by
  induction binds with
  | declare inLoop next => exact Int.le_add_one (Int.le_refl next)
  | assign => exact Int.le_refl _
  | expr => exact Int.le_refl _
  | spawn => exact Int.le_refl _
  | «return» => exact Int.le_refl _
  | «break» => exact Int.le_refl _
  | «continue» => exact Int.le_refl _
  | block inside ih => exact ih
  | branch note condition inside ih => exact ih
  | branchElse note condition ifYes ifNo yesIH noIH => exact Int.le_trans yesIH noIH
  | loop inLoop note condition inside ih => exact ih
  | scope isLoopBody note inside ih => exact ih
  | nil => exact Int.le_refl _
  | cons before behind beforeIH behindIH => exact Int.le_trans beforeIH behindIH

theorem descending {fragment : Fragment} (binds : Binds inLoop next visible fragment after seen)
    (before : Descending next visible) : Descending after seen := by
  induction binds with
  | declare inLoop next =>
      refine List.pairwise_cons.mpr ⟨fun binding member => ?_, before⟩
      rcases List.mem_cons.mp member with rfl | earlier
      · exact Int.lt_add_one_of_le (Int.le_refl _)
      · have below : binding < next := (List.pairwise_cons.mp before).1 binding earlier
        exact Int.lt_add_one_of_le (Int.le_of_lt below)
  | assign => exact before
  | expr => exact before
  | spawn => exact before
  | «return» => exact before
  | «break» => exact before
  | «continue» => exact before
  | block inside ih => exact ih before
  | branch note condition inside ih => exact ih before
  | branchElse note condition ifYes ifNo yesIH noIH => exact noIH (yesIH before)
  | loop inLoop note condition inside ih => exact ih before
  | scope isLoopBody note inside ih => exact before.later inside.next_le
  | nil => exact before
  | cons first rest firstIH restIH => exact restIH (firstIH before)

end Binds

/-- A fragment with its nodes numbered from the given number on. -/
def Fragment.numbered : Fragment → (first : NodeId) → Fragment
  | .statement inner, first => .statement (inner.number first).1
  | .block isLoopBody inner, first => .block isLoopBody (inner.number first).1
  | .sequence statements, first => .sequence (numberStmts statements first).1

theorem returnsVisible_number {visible : Names} {value : Option Expr} (next : NodeId)
    (named : ReturnsVisible visible value) :
    ReturnsVisible visible (numberExpr? value next).1 := by
  cases value with
  | none => trivial
  | some expr =>
      cases expr with
      | var note name binding => exact named
      | _ => trivial

/-- Numbering does not change how names are bound. -/
theorem Binds.numbered {inLoop : Bool} {next after : BindingId} {visible seen : Names}
    {fragment : Fragment} (binds : Binds inLoop next visible fragment after seen)
    (first : NodeId) : Binds inLoop next visible (fragment.numbered first) after seen := by
  induction binds generalizing first with
  | declare => exact .declare ..
  | assign => exact .assign ..
  | expr => exact .expr ..
  | spawn => exact .spawn ..
  | «return» inLoop next note named => exact .return _ _ _ (returnsVisible_number _ named)
  | «break» => exact .break ..
  | «continue» => exact .continue ..
  | block inside ih => exact .block (ih first)
  | branch note condition inside ih => exact .branch _ _ (ih _)
  | branchElse note condition ifYes ifNo yesIH noIH => exact .branchElse _ _ (yesIH _) (noIH _)
  | loop inLoop note condition inside ih => exact .loop _ _ _ (ih _)
  | scope isLoopBody note inside ih => exact .scope _ _ (ih _)
  | nil => exact .nil ..
  | cons before behind beforeIH behindIH => exact .cons (beforeIH _) (behindIH _)

end LifecycleHooks

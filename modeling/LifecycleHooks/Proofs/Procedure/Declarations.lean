import LifecycleHooks.Proofs.Procedure.Binding
import LifecycleHooks.Proofs.Procedure.Numbering

/-!
# Declarations

A body declares its locals one after the other, each with the type that is spelled or else
with that of its value.  In a body whose names are bound no two declarations have the same
binding.  Numbering the nodes does not change them.
-/

namespace LifecycleHooks

/-- The declared bindings, each with the type that its declaration tells, if it tells one. -/
abbrev Declared := List (BindingId × Option TypeId)

mutual

/-- The declarations of a statement, in the order written. -/
def Stmt.declarations : Stmt → Declared
  | .block block => block.declarations
  | .declare _ _ value type _ binding =>
      binding.toList.map fun id => (id, type.or (value.bind Expr.type))
  | .branch _ _ yes none => yes.declarations
  | .branch _ _ yes (some no) => yes.declarations ++ no.declarations
  | .loop _ _ body => body.declarations
  | .assign .. | .expr .. | .return .. | .break _ | .continue _ | .spawn .. => []

/-- The declarations of a block, in the order written. -/
def Block.declarations : Block → Declared
  | .mk _ statements => declarationsOf statements

/-- The declarations of statements, in the order written. -/
def declarationsOf : List Stmt → Declared
  | [] => []
  | statement :: rest => statement.declarations ++ declarationsOf rest

end

/-- The declarations of a fragment, in the order written. -/
def Fragment.declarations : Fragment → Declared
  | .statement inner => inner.declarations
  | .block _ inner => inner.declarations
  | .sequence statements => declarationsOf statements

theorem declarationsOf_append (first second : List Stmt) :
    declarationsOf (first ++ second) = declarationsOf first ++ declarationsOf second := by
  induction first with
  | nil => rfl
  | cons statement first ih => simp [declarationsOf, ih]

/-- The declared bindings are given one after the other. -/
theorem Binds.declarations_within {inLoop : Bool} {first after : BindingId} {visible seen : Names}
    {fragment : Fragment} (binds : Binds inLoop first visible fragment after seen) :
    Within first after (fragment.declarations.map Prod.fst) := by
  induction binds with
  | declare inLoop first => exact .single first
  | assign => exact .nil (Int.le_refl _)
  | expr => exact .nil (Int.le_refl _)
  | spawn => exact .nil (Int.le_refl _)
  | «return» => exact .nil (Int.le_refl _)
  | «break» => exact .nil (Int.le_refl _)
  | «continue» => exact .nil (Int.le_refl _)
  | block inside ih => exact ih
  | branch note condition inside ih => exact ih
  | branchElse note condition ifYes ifNo yesIH noIH =>
      simp only [Fragment.declarations, Stmt.declarations, List.map_append] at yesIH noIH ⊢
      exact yesIH.append noIH
  | loop inLoop note condition inside ih => exact ih
  | scope isLoopBody note inside ih => exact ih
  | nil => exact .nil (Int.le_refl _)
  | cons before behind beforeIH behindIH =>
      simp only [Fragment.declarations, declarationsOf, List.map_append] at beforeIH behindIH ⊢
      exact beforeIH.append behindIH

/-- The nodes of a fragment. -/
def Fragment.nodes : Fragment → List Node
  | .statement inner => inner.nodes
  | .block _ inner => inner.nodes
  | .sequence statements => nodesOf statements

/-- Every declaration among the nodes has a binding, and they are the declarations. -/
theorem Binds.bindings_among {inLoop : Bool} {first after : BindingId} {visible seen : Names}
    {fragment : Fragment} (binds : Binds inLoop first visible fragment after seen) :
    bindingsAmong fragment.nodes = fragment.declarations.map fun declared => (some declared.1, declared.2) := by
  induction binds with
  | declare inLoop first visible note name value => exact congrArg (_ :: ·) (bindingsAmong_exprNodes value.toList)
  | assign => exact bindingsAmong_exprNodes _
  | expr => exact bindingsAmong_exprNodes _
  | spawn => exact bindingsAmong_exprNodes _
  | «return» => exact bindingsAmong_exprNodes _
  | «break» => rfl
  | «continue» => rfl
  | block inside ih => exact ih
  | @branch _ _ _ _ _ note condition yes inside ih =>
      change bindingsAmong (exprNodes [condition] ++ yes.nodes) = _
      rw [bindingsAmong_append, bindingsAmong_exprNodes]
      exact ih
  | @branchElse _ _ _ _ _ _ _ note condition yes no ifYes ifNo yesIH noIH =>
      change bindingsAmong (exprNodes [condition] ++ yes.nodes ++ no.nodes) = (yes.declarations ++ no.declarations).map _
      rw [bindingsAmong_append, bindingsAmong_append, bindingsAmong_exprNodes, List.map_append]
      exact congrArg₂ (· ++ ·) yesIH noIH
  | @loop _ _ _ _ _ note condition body inside ih =>
      change bindingsAmong (exprNodes [condition] ++ body.nodes) = _
      rw [bindingsAmong_append, bindingsAmong_exprNodes]
      exact ih
  | scope isLoopBody note inside ih => exact ih
  | nil => rfl
  | cons before behind beforeIH behindIH =>
      simp only [Fragment.nodes, Fragment.declarations, declarationsOf, nodesOf] at beforeIH behindIH ⊢
      rw [bindingsAmong_append, beforeIH, behindIH, List.map_append]

/-- Numbering leaves the declarations as they are. -/
theorem Binds.declarations_numbered {inLoop : Bool} {next after : BindingId} {visible seen : Names}
    {fragment : Fragment} (binds : Binds inLoop next visible fragment after seen) (first : NodeId) :
    (fragment.numbered first).declarations = fragment.declarations := by
  induction binds generalizing first with
  | declare inLoop next visible note name value =>
      simp [Fragment.numbered, Fragment.declarations, Stmt.number, Stmt.declarations, type_number]
  | assign => rfl
  | expr => rfl
  | spawn => rfl
  | «return» => rfl
  | «break» => rfl
  | «continue» => rfl
  | block inside ih => exact ih first
  | branch note condition inside ih => exact ih _
  | branchElse note condition ifYes ifNo yesIH noIH => exact congrArg₂ (· ++ ·) (yesIH _) (noIH _)
  | loop inLoop note condition inside ih => exact ih _
  | scope isLoopBody note inside ih => exact ih _
  | nil => rfl
  | cons before behind beforeIH behindIH => exact congrArg₂ (· ++ ·) (beforeIH first) (behindIH _)

/-- A statement is reached in a fragment when some execution comes to it: control enters
what it stands in, and passes what stands before it. -/
inductive Reaches (target : Stmt) : Fragment → Prop where
  | here : Reaches target (.statement target)
  | block {block : Block} (inside : Reaches target (.block false block)) :
      Reaches target (.statement (.block block))
  | branchYes (note : Note) (condition : Expr) {yes : Block} (no : Option Block)
      (inside : Reaches target (.block false yes)) :
      Reaches target (.statement (.branch note condition yes no))
  | branchNo (note : Note) (condition : Expr) (yes : Block) {no : Block}
      (inside : Reaches target (.block false no)) :
      Reaches target (.statement (.branch note condition yes (some no)))
  | loop (note : Note) (condition : Expr) {body : Block}
      (inside : Reaches target (.block true body)) :
      Reaches target (.statement (.loop note condition body))
  | scope (isLoopBody : Bool) (note : Note) {statements : List Stmt}
      (inside : Reaches target (.sequence statements)) :
      Reaches target (.block isLoopBody (.mk note statements))
  | first {statement : Stmt} (statements : List Stmt)
      (inside : Reaches target (.statement statement)) :
      Reaches target (.sequence (statement :: statements))
  | behind {destroys : NodeId → List BindingId} {statement : Stmt} {statements : List Stmt}
      {events : List LocalEvent} (passes : Runs destroys (.statement statement) events .fallthrough)
      (inside : Reaches target (.sequence statements)) :
      Reaches target (.sequence (statement :: statements))

/-- The declarations of a statement that is reached are among those of the fragment. -/
theorem Reaches.declarations {target : Stmt} {fragment : Fragment} (reaches : Reaches target fragment) :
    target.declarations ⊆ fragment.declarations := by
  induction reaches with
  | here => exact List.Subset.refl _
  | block inside ih => exact ih
  | branchYes note condition no inside ih =>
      cases no with
      | none => exact ih
      | some no => exact List.subset_append_of_subset_left _ ih
  | branchNo note condition yes inside ih => exact List.subset_append_of_subset_right _ ih
  | loop note condition inside ih => exact ih
  | scope isLoopBody note inside ih => exact ih
  | first statements inside ih => exact List.subset_append_of_subset_left _ ih
  | behind passes inside ih => exact List.subset_append_of_subset_right _ ih

/-- A declaration that is reached has a binding. -/
theorem Reaches.bound {note : Note} {name : String} {value : Option Expr} {type : Option TypeId}
    {mutability : Bool} {binding : Option BindingId} {fragment : Fragment}
    (reaches : Reaches (.declare note name value type mutability binding) fragment)
    {inLoop : Bool} {first after : BindingId} {visible seen : Names}
    (binds : Binds inLoop first visible fragment after seen) : ∃ id, binding = some id := by
  induction reaches generalizing inLoop first after visible seen with
  | here =>
      cases binds
      exact ⟨first, rfl⟩
  | block inside ih =>
      cases binds with
      | block binds => exact ih binds
  | branchYes note condition no inside ih =>
      cases binds with
      | branch _ _ binds => exact ih binds
      | branchElse _ _ yes no => exact ih yes
  | branchNo note condition yes inside ih =>
      cases binds with
      | branchElse _ _ yes no => exact ih no
  | loop note condition inside ih =>
      cases binds with
      | loop _ _ _ binds => exact ih binds
  | scope isLoopBody note inside ih =>
      cases binds with
      | scope _ _ binds => exact ih binds
  | first statements inside ih =>
      cases binds with
      | cons here later => exact ih here
  | behind passes inside ih =>
      cases binds with
      | cons here later => exact ih later

end LifecycleHooks

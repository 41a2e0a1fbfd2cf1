import LifecycleHooks.Handoff
import LifecycleHooks.Procedure.Numbering
import LifecycleHooks.Procedure.Sites

/-!
# Types of expressions

Numbering the nodes of a body leaves the types of its expressions as they are.  The
arguments of its spawns are among its expressions.
-/

namespace LifecycleHooks

/-- The types of expressions, where they are known. -/
def typesOf (exprs : List Expr) : List TypeId := exprs.filterMap Expr.type

@[simp]
theorem typesOf_nil : typesOf [] = [] :=
  rfl

@[simp]
theorem typesOf_cons (expr : Expr) (rest : List Expr) :
    typesOf (expr :: rest) = expr.type.toList ++ typesOf rest := by
  cases known : expr.type <;> simp [typesOf, known]

@[simp]
theorem typesOf_append (first second : List Expr) : typesOf (first ++ second) = typesOf first ++ typesOf second :=
  List.filterMap_append

/-- An expression stands first among its parts. -/
theorem Expr.mem_withParts (expr : Expr) : expr ∈ expr.withParts := by
  cases expr <;> simp [withParts]

theorem mem_partsOf {expr : Expr} {exprs : List Expr} (member : expr ∈ exprs) : expr ∈ partsOf exprs := by
  induction exprs with
  | nil => cases member
  | cons other rest ih =>
      rcases List.mem_cons.mp member with rfl | behind
      · exact List.mem_append_left _ expr.mem_withParts
      · exact List.mem_append_right _ (ih behind)

theorem exprsOf_append (first second : List Stmt) : exprsOf (first ++ second) = exprsOf first ++ exprsOf second := by
  induction first with
  | nil => rfl
  | cons statement rest ih => simp [exprsOf, ih]

section Numbering

mutual

/-- Numbering leaves the types inside an expression as they are. -/
theorem Expr.number_types : (expr : Expr) → (first : NodeId) →
    typesOf (expr.number first).1.withParts = typesOf expr.withParts
  | .var .., _ => rfl
  | .integer .., _ => rfl
  | .boolean .., _ => rfl
  | .call note callee args, first => by
      have inside := numberExprs_types args (first + 1)
      simpa [Expr.number, Expr.withParts, Expr.type, Expr.note] using inside
  | .field note subject name, first => by
      have inside := subject.number_types (first + 1)
      simpa [Expr.number, Expr.withParts, Expr.type, Expr.note] using inside

theorem numberExprs_types : (exprs : List Expr) → (first : NodeId) →
    typesOf (partsOf (numberExprs exprs first).1) = typesOf (partsOf exprs)
  | [], _ => rfl
  | expr :: rest, first => by
      have here := expr.number_types first
      have others := numberExprs_types rest (expr.number first).2
      simp [numberExprs, partsOf, here, others]

end

theorem numberExpr?_types (expr : Option Expr) (first : NodeId) :
    typesOf (partsOf (numberExpr? expr first).1.toList) = typesOf (partsOf expr.toList) := by
  cases expr with
  | none => rfl
  | some expr => simp [numberExpr?, partsOf, expr.number_types first]

mutual

/-- Numbering leaves the types inside a statement as they are. -/
theorem Stmt.number_types : (statement : Stmt) → (first : NodeId) →
    typesOf (statement.number first).1.exprs = typesOf statement.exprs
  | .block block, first => block.number_types first
  | .declare _ _ value .., first => numberExpr?_types value (first + 1)
  | .assign _ target value, first => by
      simp [Stmt.number, Stmt.exprs, target.number_types, value.number_types]
  | .expr _ inner, first => inner.number_types (first + 1)
  | .return _ value, first => numberExpr?_types value (first + 1)
  | .branch _ condition yes none, first => by
      simp [Stmt.number, Stmt.exprs, condition.number_types, yes.number_types]
  | .branch _ condition yes (some no), first => by
      simp [Stmt.number, Stmt.exprs, condition.number_types, yes.number_types, no.number_types]
  | .loop _ condition body, first => by
      simp [Stmt.number, Stmt.exprs, condition.number_types, body.number_types]
  | .break _, _ => rfl
  | .continue _, _ => rfl
  | .spawn _ _ _ args, first => numberExprs_types args (first + 2)

/-- Numbering leaves the types inside a block as they are. -/
theorem Block.number_types : (block : Block) → (first : NodeId) →
    typesOf (block.number first).1.exprs = typesOf block.exprs
  | .mk _ statements, first => numberStmts_types statements (first + 1)

theorem numberStmts_types : (statements : List Stmt) → (first : NodeId) →
    typesOf (exprsOf (numberStmts statements first).1) = typesOf (exprsOf statements)
  | [], _ => rfl
  | statement :: rest, first => by
      have here := statement.number_types first
      have others := numberStmts_types rest (statement.number first).2
      simp [numberStmts, exprsOf, here, others]

end

end Numbering

section Spawning

mutual

/-- What a statement hands to a task is among its expressions. -/
theorem Stmt.args_subset_exprs : (statement : Stmt) → ∀ spawn ∈ statement.spawns, spawn.args ⊆ statement.exprs
  | .block block => block.args_subset_exprs
  | .branch _ condition yes none => fun spawn member =>
      List.subset_append_of_subset_right _ (yes.args_subset_exprs spawn member)
  | .branch _ condition yes (some no) => fun spawn member => by
      rw [Stmt.exprs, List.append_assoc]
      refine List.subset_append_of_subset_right _ ?_
      rcases List.mem_append.mp member with inYes | inNo
      · exact List.subset_append_of_subset_left _ (yes.args_subset_exprs spawn inYes)
      · exact List.subset_append_of_subset_right _ (no.args_subset_exprs spawn inNo)
  | .loop _ condition body => fun spawn member =>
      List.subset_append_of_subset_right _ (body.args_subset_exprs spawn member)
  | .spawn note _ callee args => fun spawn member => by
      obtain rfl := List.mem_singleton.mp member
      exact fun _ => mem_partsOf
  | .declare .. | .assign .. | .expr .. | .return .. | .break _ | .continue _ => by simp [Stmt.spawns]

/-- What a block hands to a task is among its expressions. -/
theorem Block.args_subset_exprs : (block : Block) → ∀ spawn ∈ block.spawns, spawn.args ⊆ block.exprs
  | .mk _ statements => args_subset_exprsOf statements

theorem args_subset_exprsOf : (statements : List Stmt) → ∀ spawn ∈ spawnsOf statements,
    spawn.args ⊆ exprsOf statements
  | [] => by simp [spawnsOf]
  | statement :: rest => fun spawn member => by
      rcases List.mem_append.mp member with here | behind
      · exact List.subset_append_of_subset_left _ (statement.args_subset_exprs spawn here)
      · exact List.subset_append_of_subset_right _ (args_subset_exprsOf rest spawn behind)

end

end Spawning
end LifecycleHooks

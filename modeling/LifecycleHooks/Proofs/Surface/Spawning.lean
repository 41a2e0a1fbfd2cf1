import LifecycleHooks.Surface.Derivation

/-!
# Spawned calls

The grammar lets any expression be spawned.  What must be a call is the operand without its
parentheses, wherever the spawn is nested.
-/

namespace LifecycleHooks.Surface.Derivation

/-- An expression is a call once its parentheses are removed. -/
def Expr.IsCall : Expr → Prop
  | .call .. => True
  | .paren _ inner _ => inner.IsCall
  | .name _ | .integer _ | .true _ | .false _ | .field .. => False

mutual

/-- The operands of the spawns under a statement. -/
def Stmt.operands : Stmt → List Expr
  | .branch branch => branch.operands
  | .while _ _ body => body.operands
  | .block _ block => block.operands
  | .spawn _ operand _ => [operand]
  | .var .. | .let .. | .assign .. | .expr .. | .return .. | .break .. | .continue .. => []

/-- The operands of the spawns under a branch. -/
def Branch.operands : Branch → List Expr
  | .mk _ _ yes none => yes.operands
  | .mk _ _ yes (some no) => yes.operands ++ no.operands

/-- The operands of the spawns under an alternative. -/
def Alternative.operands : Alternative → List Expr
  | .block _ block => block.operands
  | .branch _ branch => branch.operands

/-- The operands of the spawns in a block. -/
def Block.operands : Block → List Expr
  | .mk _ statements _ => Stmt.operandsOf statements

/-- The operands of the spawns under statements. -/
def Stmt.operandsOf : List Stmt → List Expr
  | [] => []
  | first :: rest => first.operands ++ Stmt.operandsOf rest

end

/-- The operands of the spawns under a declaration. -/
def Item.operands : Item → List Expr
  | .type _ => []
  | .proc decl => decl.body.operands

/-- Every spawn of a program has a call for its operand, parentheses aside. -/
def Program.SpawnsCalls (program : Program) : Prop :=
  ∀ item ∈ program.items, ∀ operand ∈ item.operands, operand.IsCall

theorem Expr.isCall_tree : (expr : Expr) → (expr.tree.isCall = Bool.true ↔ expr.IsCall)
  | .call _ _ none _ | .call _ _ (some _) _ => by simp [tree, Surface.Expr.isCall, IsCall]
  | .paren _ inner _ => by simpa [tree, IsCall] using inner.isCall_tree
  | .name _ | .integer _ | .true _ | .false _ | .field .. => by simp [tree, Surface.Expr.isCall, IsCall]

mutual

theorem Stmt.strayOperand?_tree : (statement : Stmt) →
    (statement.tree.strayOperand? = none ↔ ∀ operand ∈ statement.operands, operand.IsCall)
  | .branch branch => by simpa [Stmt.tree, Stmt.operands] using branch.strayOperand?_tree
  | .while _ _ body => by simpa [Stmt.tree, Stmt.operands, Surface.Stmt.strayOperand?] using body.strayOperand?_tree
  | .block _ block => by simpa [Stmt.tree, Stmt.operands, Surface.Stmt.strayOperand?] using block.strayOperand?_tree
  | .spawn _ operand _ => by simp [Stmt.tree, Stmt.operands, Surface.Stmt.strayOperand?, operand.isCall_tree]
  | .var .. | .let .. | .assign .. | .expr .. | .return .. | .break .. | .continue .. => by
      simp [Stmt.tree, Stmt.operands, Surface.Stmt.strayOperand?]

theorem Branch.strayOperand?_tree : (branch : Branch) →
    (branch.tree.strayOperand? = none ↔ ∀ operand ∈ branch.operands, operand.IsCall)
  | .mk _ _ yes none => by simpa [Branch.tree, Branch.operands, Surface.Stmt.strayOperand?] using yes.strayOperand?_tree
  | .mk _ _ yes (some no) => by
      simp [Branch.tree, Branch.operands, Surface.Stmt.strayOperand?, Option.or_eq_none_iff, yes.strayOperand?_tree,
        no.strayOperand?_tree, List.mem_append, or_imp, forall_and]

theorem Alternative.strayOperand?_tree : (alternative : Alternative) →
    (alternative.tree.strayOperand? = none ↔ ∀ operand ∈ alternative.operands, operand.IsCall)
  | .block _ block => by simpa [Alternative.tree, Alternative.operands] using block.strayOperand?_tree
  | .branch _ branch => by
      simp [Alternative.tree, Alternative.operands, Surface.Block.strayOperand?, strayOperandIn?,
        branch.strayOperand?_tree]

theorem Block.strayOperand?_tree : (block : Block) →
    (block.tree.strayOperand? = none ↔ ∀ operand ∈ block.operands, operand.IsCall)
  | .mk _ statements _ => by
      simpa [Block.tree, Block.operands, Surface.Block.strayOperand?] using Stmt.strayOperandIn?_treesOf statements

theorem Stmt.strayOperandIn?_treesOf : (statements : List Stmt) →
    (strayOperandIn? (Stmt.treesOf statements) = none ↔ ∀ operand ∈ Stmt.operandsOf statements, operand.IsCall)
  | [] => by simp [Stmt.treesOf, Stmt.operandsOf, strayOperandIn?]
  | first :: rest => by
      simp [Stmt.treesOf, Stmt.operandsOf, strayOperandIn?, Option.or_eq_none_iff, first.strayOperand?_tree,
        Stmt.strayOperandIn?_treesOf rest, or_imp, forall_and]

end

theorem Program.strayOperand?_tree (program : Program) : program.tree.strayOperand? = none ↔ program.SpawnsCalls := by
  unfold Surface.Program.strayOperand? Program.SpawnsCalls
  rw [List.findSome?_eq_none_iff]
  constructor
  · intro none item member
    cases item with
    | type decl => simp [Item.operands]
    | proc decl => exact decl.body.strayOperand?_tree.mp (none decl.tree (List.mem_filterMap.mpr ⟨_, member, rfl⟩))
  · intro calls procedure member
    obtain ⟨item, found, tree⟩ := List.mem_filterMap.mp member
    cases item with
    | type decl => simp at tree
    | proc decl =>
        obtain rfl := Option.some.inj tree
        exact decl.body.strayOperand?_tree.mpr (calls (.proc decl) found)

end LifecycleHooks.Surface.Derivation

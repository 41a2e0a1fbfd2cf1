import LifecycleHooks.Procedure.Numbering
import LifecycleHooks.Procedure.Sites
import Mathlib.Data.List.Basic

/-!
# The nodes of a procedure

The nodes of a procedure stand in one list: the procedure, its parameters and its body, and of
everything in the body a node before what stands inside it.  Numbering gives them consecutive
numbers in this order and changes nothing else about them.
-/

namespace LifecycleHooks

/-- A node of a procedure.  A block is a node even where it stands as a statement, and the
call that a spawn hands to a task is one as well. -/
inductive Node where
  | procedure (whole : Procedure)
  | param (param : Param)
  | block (block : Block)
  | statement (statement : Stmt)
  | expr (expr : Expr)

/-- The number of a statement. -/
def Stmt.id : Stmt → NodeId
  | .block inner => inner.note.id
  | .declare note .. | .assign note .. | .expr note _ | .return note _ | .branch note .. | .loop note ..
  | .break note | .continue note | .spawn note .. => note.id

namespace Node

/-- The number of a node. -/
def id : Node → NodeId
  | .procedure whole => whole.note.id
  | .param bound => bound.note.id
  | .block inner => inner.note.id
  | .statement inner => inner.id
  | .expr inner => inner.id

/-- The expression that a node is, if it is one. -/
def expr? : Node → Option Expr
  | .expr inner => some inner
  | _ => none

/-- The binding that a node gives, if it is a parameter or a declaration, with the type that it
tells, if it tells one. -/
def binding? : Node → Option (Option BindingId × Option TypeId)
  | .param bound => some (bound.binding, some bound.type)
  | .statement (.declare _ _ value type _ binding) => some (binding, type.or (value.bind Expr.type))
  | _ => none

/-- The call that a node hands to a task, if it is a spawn. -/
def call? : Node → Option Expr
  | .statement (.spawn _ call callee args) => some (.call call callee args)
  | _ => none

/-- What a node tells besides its number: the type of an expression, and the binding of a
parameter or a declaration. -/
def told (node : Node) : Option (Option TypeId) × Option (Option BindingId × Option TypeId) :=
  (node.expr?.map Expr.type, node.binding?)

end Node

/-- The nodes of expressions. -/
def exprNodes (exprs : List Expr) : List Node := (partsOf exprs).map .expr

mutual

/-- The nodes of a statement. -/
def Stmt.nodes : Stmt → List Node
  | .block block => block.nodes
  | .declare note name value type mutability binding =>
      .statement (.declare note name value type mutability binding) :: exprNodes value.toList
  | .assign note target value => .statement (.assign note target value) :: exprNodes [target, value]
  | .expr note inner => .statement (.expr note inner) :: exprNodes [inner]
  | .return note value => .statement (.return note value) :: exprNodes value.toList
  | .branch note condition yes none =>
      .statement (.branch note condition yes none) :: (exprNodes [condition] ++ yes.nodes)
  | .branch note condition yes (some no) =>
      .statement (.branch note condition yes (some no)) :: (exprNodes [condition] ++ yes.nodes ++ no.nodes)
  | .loop note condition body => .statement (.loop note condition body) :: (exprNodes [condition] ++ body.nodes)
  | .break note => [.statement (.break note)]
  | .continue note => [.statement (.continue note)]
  | .spawn note call callee args => .statement (.spawn note call callee args) :: exprNodes [.call call callee args]

/-- The nodes of a block. -/
def Block.nodes : Block → List Node
  | .mk note statements => .block (.mk note statements) :: nodesOf statements

/-- The nodes of statements. -/
def nodesOf : List Stmt → List Node
  | [] => []
  | statement :: rest => statement.nodes ++ nodesOf rest

end

/-- The nodes of a procedure. -/
def Procedure.nodes (procedure : Procedure) : List Node :=
  .procedure procedure :: (procedure.params.map .param ++ procedure.body.nodes)

/-- The expressions among nodes. -/
def exprsAmong (nodes : List Node) : List Expr := nodes.filterMap Node.expr?

/-- The bindings that are given at nodes. -/
def bindingsAmong (nodes : List Node) : List (Option BindingId × Option TypeId) := nodes.filterMap Node.binding?

/-- The calls that are handed to tasks at nodes. -/
def callsAmong (nodes : List Node) : List Expr := nodes.filterMap Node.call?

/-- Numbers that are given one after the other, from a first one up to the next free one. -/
inductive Counts : (first : Int) → List Int → (after : Int) → Prop where
  | nil (first : Int) : Counts first [] first
  | cons {first after : Int} {ids : List Int} (behind : Counts (first + 1) ids after) :
      Counts first (first :: ids) after

namespace Counts

variable {first middle after : Int} {ids others : List Int}

theorem append (before : Counts first ids middle) (behind : Counts middle others after) :
    Counts first (ids ++ others) after := by
  induction before with
  | nil => exact behind
  | cons _ ih => exact .cons (ih behind)

/-- The numbers are the first one and those that follow it. -/
theorem eq_range (counts : Counts first ids after) :
    ids = (List.range ids.length).map fun position : Nat => first + (position : Int) := by
  induction counts with
  | nil => rfl
  | @cons first after ids _ ih =>
      rw [List.length_cons, List.range_succ_eq_map, List.map_cons, List.map_map]
      refine congrArg₂ List.cons (by simp) (ih.trans (List.map_congr_left fun position _ => ?_))
      simp only [Function.comp_apply]
      omega

end Counts

/-- Nodes are numbered from a first number up to the next free one, and tell the same as before. -/
structure Renumbers (first after : NodeId) (nodes numbered : List Node) : Prop where
  counts : Counts first (numbered.map Node.id) after
  told : numbered.map Node.told = nodes.map Node.told

namespace Renumbers

variable {first middle after : NodeId} {nodes numbered others othersNumbered : List Node}

theorem nil (first : NodeId) : Renumbers first first [] [] :=
  ⟨.nil first, rfl⟩

theorem cons {node same : Node} (behind : Renumbers (first + 1) after nodes numbered) (id : same.id = first)
    (told : same.told = node.told) : Renumbers first after (node :: nodes) (same :: numbered) where
  counts := by
    rw [List.map_cons, id]
    exact .cons behind.counts
  told := by rw [List.map_cons, List.map_cons, told, behind.told]

theorem append (before : Renumbers first middle nodes numbered)
    (behind : Renumbers middle after others othersNumbered) :
    Renumbers first after (nodes ++ others) (numbered ++ othersNumbered) where
  counts := by
    rw [List.map_append]
    exact before.counts.append behind.counts
  told := by rw [List.map_append, List.map_append, before.told, behind.told]

/-- The expressions keep their types. -/
theorem types (renumbers : Renumbers first after nodes numbered) :
    (exprsAmong numbered).map Expr.type = (exprsAmong nodes).map Expr.type := by
  have known := congrArg (List.filterMap Prod.fst) renumbers.told
  rw [List.filterMap_map, List.filterMap_map] at known
  rw [exprsAmong, exprsAmong, List.map_filterMap, List.map_filterMap]
  exact known

/-- Parameters and declarations keep their bindings. -/
theorem bindings (renumbers : Renumbers first after nodes numbered) :
    bindingsAmong numbered = bindingsAmong nodes := by
  have known := congrArg (List.filterMap Prod.snd) renumbers.told
  rwa [List.filterMap_map, List.filterMap_map] at known

end Renumbers

section Numbering

mutual

theorem Expr.number_nodes : (expr : Expr) → (first : NodeId) →
    Renumbers first (expr.number first).2 (expr.withParts.map .expr) ((expr.number first).1.withParts.map .expr)
  | .var .., _ => (Renumbers.nil _).cons rfl rfl
  | .integer .., _ => (Renumbers.nil _).cons rfl rfl
  | .boolean .., _ => (Renumbers.nil _).cons rfl rfl
  | .call _ _ args, first => (numberExprs_nodes args (first + 1)).cons rfl rfl
  | .field _ subject _, first => (subject.number_nodes (first + 1)).cons rfl rfl

theorem numberExprs_nodes : (exprs : List Expr) → (first : NodeId) →
    Renumbers first (numberExprs exprs first).2 (exprNodes exprs) (exprNodes (numberExprs exprs first).1)
  | [], first => .nil first
  | expr :: rest, first => by
      have both := (expr.number_nodes first).append (numberExprs_nodes rest (expr.number first).2)
      simpa only [exprNodes, partsOf, numberExprs, List.map_append] using both

end

theorem numberExpr?_nodes (expr : Option Expr) (first : NodeId) :
    Renumbers first (numberExpr? expr first).2 (exprNodes expr.toList) (exprNodes (numberExpr? expr first).1.toList) := by
  cases expr with
  | none => exact .nil first
  | some expr => exact numberExprs_nodes [expr] first

theorem type_number (value : Option Expr) (first : NodeId) :
    (numberExpr? value first).1.bind Expr.type = value.bind Expr.type := by
  cases value with
  | none => rfl
  | some expr => cases expr <;> rfl

mutual

/-- Numbering a statement numbers its nodes one after the other. -/
theorem Stmt.number_nodes : (statement : Stmt) → (first : NodeId) →
    Renumbers first (statement.number first).2 statement.nodes (statement.number first).1.nodes
  | .block block, first => block.number_nodes first
  | .declare _ _ value type _ binding, first =>
      (numberExpr?_nodes value (first + 1)).cons rfl
        (congrArg (fun found => (none, some (binding, type.or found))) (type_number value (first + 1)))
  | .assign _ target value, first => (numberExprs_nodes [target, value] (first + 1)).cons rfl rfl
  | .expr _ inner, first => (numberExprs_nodes [inner] (first + 1)).cons rfl rfl
  | .return _ value, first => (numberExpr?_nodes value (first + 1)).cons rfl rfl
  | .branch _ condition yes none, first =>
      ((numberExprs_nodes [condition] (first + 1)).append (yes.number_nodes _)).cons rfl rfl
  | .branch _ condition yes (some no), first =>
      (((numberExprs_nodes [condition] (first + 1)).append (yes.number_nodes _)).append (no.number_nodes _)).cons rfl rfl
  | .loop _ condition body, first =>
      ((numberExprs_nodes [condition] (first + 1)).append (body.number_nodes _)).cons rfl rfl
  | .break _, _ => (Renumbers.nil _).cons rfl rfl
  | .continue _, _ => (Renumbers.nil _).cons rfl rfl
  | .spawn _ call callee args, first => by
      have inside := numberExprs_nodes [.call call callee args] (first + 1)
      simp only [numberExprs, Expr.number, Int.add_assoc] at inside
      exact inside.cons rfl rfl

/-- Numbering a block numbers its nodes one after the other. -/
theorem Block.number_nodes : (block : Block) → (first : NodeId) →
    Renumbers first (block.number first).2 block.nodes (block.number first).1.nodes
  | .mk _ statements, first => (numberStmts_nodes statements (first + 1)).cons rfl rfl

/-- Numbering statements numbers their nodes one after the other. -/
theorem numberStmts_nodes : (statements : List Stmt) → (first : NodeId) →
    Renumbers first (numberStmts statements first).2 (nodesOf statements) (nodesOf (numberStmts statements first).1)
  | [], first => .nil first
  | statement :: rest, first =>
      (statement.number_nodes first).append (numberStmts_nodes rest (statement.number first).2)

end

theorem numberParams_nodes (params : List Param) (first : NodeId) :
    Renumbers first (numberParams params first).2 (params.map .param) ((numberParams params first).1.map .param) := by
  induction params generalizing first with
  | nil => exact .nil first
  | cons param params ih => exact (ih (first + 1)).cons rfl rfl

/-- Numbering a procedure numbers its nodes one after the other. -/
theorem Procedure.number_nodes (procedure : Procedure) (first : NodeId) :
    Renumbers first (procedure.number first).2 procedure.nodes (procedure.number first).1.nodes :=
  ((numberParams_nodes procedure.params (first + 1)).append (procedure.body.number_nodes _)).cons rfl rfl

end Numbering

section Among

theorem nodesOf_append (first second : List Stmt) : nodesOf (first ++ second) = nodesOf first ++ nodesOf second := by
  induction first with
  | nil => rfl
  | cons statement first ih => simp [nodesOf, ih]

@[simp]
theorem exprsAmong_append (first second : List Node) :
    exprsAmong (first ++ second) = exprsAmong first ++ exprsAmong second :=
  List.filterMap_append

@[simp]
theorem bindingsAmong_append (first second : List Node) :
    bindingsAmong (first ++ second) = bindingsAmong first ++ bindingsAmong second :=
  List.filterMap_append

@[simp]
theorem exprsAmong_statement (statement : Stmt) (nodes : List Node) :
    exprsAmong (.statement statement :: nodes) = exprsAmong nodes :=
  rfl

@[simp]
theorem exprsAmong_block (block : Block) (nodes : List Node) :
    exprsAmong (.block block :: nodes) = exprsAmong nodes :=
  rfl

@[simp]
theorem exprsAmong_exprNodes (exprs : List Expr) : exprsAmong (exprNodes exprs) = partsOf exprs := by
  simp [exprsAmong, exprNodes, List.filterMap_map, Function.comp_def, Node.expr?]

@[simp]
theorem bindingsAmong_exprNodes (exprs : List Expr) : bindingsAmong (exprNodes exprs) = [] := by
  simp [bindingsAmong, exprNodes, List.filterMap_map, Function.comp_def, Node.binding?]

@[simp]
theorem exprsAmong_params (params : List Param) : exprsAmong (params.map .param) = [] := by
  simp [exprsAmong, List.filterMap_map, Function.comp_def, Node.expr?]

@[simp]
theorem bindingsAmong_params (params : List Param) :
    bindingsAmong (params.map .param) = params.map fun param => (param.binding, some param.type) := by
  simp [bindingsAmong, List.filterMap_map, Function.comp_def, Node.binding?]

/-- The expressions of a procedure are those of its body. -/
theorem Procedure.exprsAmong_nodes (procedure : Procedure) :
    exprsAmong procedure.nodes = exprsAmong procedure.body.nodes := by
  have inside : exprsAmong procedure.nodes = exprsAmong (procedure.params.map .param ++ procedure.body.nodes) := rfl
  rw [inside, exprsAmong_append, exprsAmong_params, List.nil_append]

end Among

section Calls

theorem calls_append {first second : List Node} (before : callsAmong first ⊆ exprsAmong first)
    (behind : callsAmong second ⊆ exprsAmong second) : callsAmong (first ++ second) ⊆ exprsAmong (first ++ second) := by
  rw [callsAmong, List.filterMap_append, exprsAmong_append]
  exact List.append_subset.mpr
    ⟨List.subset_append_of_subset_left _ before, List.subset_append_of_subset_right _ behind⟩

theorem calls_cons {node : Node} {nodes : List Node} (none : node.call? = none)
    (behind : callsAmong nodes ⊆ exprsAmong nodes) : callsAmong (node :: nodes) ⊆ exprsAmong (node :: nodes) := by
  rw [callsAmong, List.filterMap_cons_none none]
  exact List.Subset.trans behind ((List.sublist_cons_self node nodes).filterMap Node.expr?).subset

theorem calls_exprNodes (exprs : List Expr) : callsAmong (exprNodes exprs) ⊆ exprsAmong (exprNodes exprs) := by
  simp [callsAmong, exprNodes, List.filterMap_map, Function.comp_def, Node.call?]

mutual

/-- What a statement hands to tasks is among its expressions. -/
theorem Stmt.calls_subset : (statement : Stmt) → callsAmong statement.nodes ⊆ exprsAmong statement.nodes
  | .block block => block.calls_subset
  | .declare _ _ value .. => calls_cons rfl (calls_exprNodes value.toList)
  | .assign _ target value => calls_cons rfl (calls_exprNodes [target, value])
  | .expr _ inner => calls_cons rfl (calls_exprNodes [inner])
  | .return _ value => calls_cons rfl (calls_exprNodes value.toList)
  | .branch _ condition yes none => calls_cons rfl (calls_append (calls_exprNodes [condition]) yes.calls_subset)
  | .branch _ condition yes (some no) =>
      calls_cons rfl (calls_append (calls_append (calls_exprNodes [condition]) yes.calls_subset) no.calls_subset)
  | .loop _ condition body => calls_cons rfl (calls_append (calls_exprNodes [condition]) body.calls_subset)
  | .break _ | .continue _ => List.nil_subset _
  | .spawn _ call callee args => by
      refine List.cons_subset.mpr ⟨List.mem_cons_self, ?_⟩
      exact calls_exprNodes [.call call callee args]

/-- What a block hands to tasks is among its expressions. -/
theorem Block.calls_subset : (block : Block) → callsAmong block.nodes ⊆ exprsAmong block.nodes
  | .mk _ statements => calls_cons rfl (nodesOf_calls statements)

/-- What statements hand to tasks is among their expressions. -/
theorem nodesOf_calls : (statements : List Stmt) → callsAmong (nodesOf statements) ⊆ exprsAmong (nodesOf statements)
  | [] => List.Subset.refl []
  | statement :: rest => calls_append statement.calls_subset (nodesOf_calls rest)

end

/-- What a procedure hands to tasks is among its expressions. -/
theorem Procedure.calls_subset (procedure : Procedure) :
    callsAmong procedure.nodes ⊆ exprsAmong procedure.nodes := by
  refine calls_cons rfl (calls_append ?_ procedure.body.calls_subset)
  simp [callsAmong, List.filterMap_map, Function.comp_def, Node.call?]

end Calls

end LifecycleHooks

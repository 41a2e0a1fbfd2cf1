import LifecycleHooks.Proofs.Procedure.Nodes
import Mathlib.Data.List.Nodup

/-!
# Numbered nodes

Numbers that are given one after the other are distinct.  So the nodes at which control
leaves scopes, the blocks and the statements that leave them, can be told apart by their
numbers, and so can the expressions.
-/

namespace LifecycleHooks

/-- Distinct numbers from a first one up to one that was not given yet. -/
structure Within (first after : Int) (ids : List Int) : Prop where
  bounds : first ≤ after
  distinct : ids.Nodup
  between : ∀ id ∈ ids, first ≤ id ∧ id < after

namespace Within

variable {first middle after : Int} {ids others : List Int}

theorem nil (onwards : first ≤ after) : Within first after [] :=
  ⟨onwards, List.nodup_nil, by simp⟩

theorem append (before : Within first middle ids) (behind : Within middle after others) :
    Within first after (ids ++ others) where
  bounds := Int.le_trans before.bounds behind.bounds
  distinct := by
    refine before.distinct.append behind.distinct fun id early late => ?_
    have below := (before.between id early).2
    have above := (behind.between id late).1
    omega
  between id member := by
    have onwards := before.bounds
    have further := behind.bounds
    rcases List.mem_append.mp member with early | late
    · have place := before.between id early
      omega
    · have place := behind.between id late
      omega

theorem single (first : Int) : Within first (first + 1) [first] :=
  ⟨by omega, List.nodup_singleton first, fun id member => by
    rw [List.mem_singleton.mp member]
    omega⟩

theorem cons (behind : Within (first + 1) after ids) : Within first after (first :: ids) :=
  (single first).append behind

theorem concat (before : Within first after ids) : Within first (after + 1) (ids ++ [after]) :=
  before.append (single after)

theorem sublist (within : Within first after ids) (sublist : others.Sublist ids) : Within first after others where
  bounds := within.bounds
  distinct := within.distinct.sublist sublist
  between id member := within.between id (sublist.subset member)

end Within

theorem Counts.within {first after : Int} {ids : List Int} (counts : Counts first ids after) :
    Within first after ids := by
  induction counts with
  | nil first => exact .nil (Int.le_refl first)
  | cons _ ih => exact ih.cons

mutual

/-- The nodes of a statement at which control can leave scopes. -/
def Stmt.anchors : Stmt → List NodeId
  | .block block => block.anchors
  | .return note _ | .break note | .continue note => [note.id]
  | .branch _ _ yes none => yes.anchors
  | .branch _ _ yes (some no) => yes.anchors ++ no.anchors
  | .loop _ _ body => body.anchors
  | .declare .. | .assign .. | .expr .. | .spawn .. => []

/-- The nodes of a block at which control can leave scopes: itself, and those inside. -/
def Block.anchors : Block → List NodeId
  | .mk note statements => note.id :: anchorsOf statements

/-- The nodes of statements at which control can leave scopes. -/
def anchorsOf : List Stmt → List NodeId
  | [] => []
  | statement :: rest => statement.anchors ++ anchorsOf rest

end

mutual

/-- The nodes at which control can leave scopes are among the nodes of a statement. -/
theorem Stmt.anchors_sublist : (statement : Stmt) → statement.anchors.Sublist (statement.nodes.map Node.id)
  | .block block => block.anchors_sublist
  | .return note _ => List.Sublist.cons_cons note.id (List.nil_sublist _)
  | .break note => List.Sublist.refl [note.id]
  | .continue note => List.Sublist.refl [note.id]
  | .branch _ _ yes none => by
      simp only [Stmt.anchors, Stmt.nodes, List.map_cons, List.map_append]
      exact (List.sublist_append_of_sublist_right yes.anchors_sublist).cons _
  | .branch _ _ yes (some no) => by
      simp only [Stmt.anchors, Stmt.nodes, List.map_cons, List.map_append, List.append_assoc]
      exact (List.sublist_append_of_sublist_right (yes.anchors_sublist.append no.anchors_sublist)).cons _
  | .loop _ _ body => by
      simp only [Stmt.anchors, Stmt.nodes, List.map_cons, List.map_append]
      exact (List.sublist_append_of_sublist_right body.anchors_sublist).cons _
  | .declare .. | .assign .. | .expr .. | .spawn .. => List.nil_sublist _

/-- The nodes at which control can leave scopes are among the nodes of a block. -/
theorem Block.anchors_sublist : (block : Block) → block.anchors.Sublist (block.nodes.map Node.id)
  | .mk note statements => (anchorsOf_sublist statements).cons_cons note.id

/-- The nodes at which control can leave scopes are among the nodes of statements. -/
theorem anchorsOf_sublist : (statements : List Stmt) → (anchorsOf statements).Sublist ((nodesOf statements).map Node.id)
  | [] => List.Sublist.refl []
  | statement :: rest => by
      rw [nodesOf, List.map_append]
      exact statement.anchors_sublist.append (anchorsOf_sublist rest)

end

/-- Numbering a block gives the nodes at which control can leave scopes distinct
numbers. -/
theorem Block.number_anchors (block : Block) (first : Int) :
    Within first (block.number first).2 (block.number first).1.anchors :=
  (block.number_nodes first).counts.within.sublist (Block.anchors_sublist _)

mutual

/-- The expressions of a statement are among its nodes. -/
theorem Stmt.exprs_sublist : (statement : Stmt) → statement.exprs.Sublist (exprsAmong statement.nodes)
  | .block block => block.exprs_sublist
  | .declare _ _ value .. => by simp [Stmt.exprs, Stmt.nodes]
  | .assign _ target value => by simp [Stmt.exprs, Stmt.nodes, partsOf]
  | .expr _ inner => by simp [Stmt.exprs, Stmt.nodes, partsOf]
  | .return _ value => by simp [Stmt.exprs, Stmt.nodes]
  | .branch _ condition yes none => by
      have inside := (List.Sublist.refl condition.withParts).append yes.exprs_sublist
      simpa [Stmt.exprs, Stmt.nodes, partsOf] using inside
  | .branch _ condition yes (some no) => by
      have inside := (List.Sublist.refl condition.withParts).append (yes.exprs_sublist.append no.exprs_sublist)
      simpa [Stmt.exprs, Stmt.nodes, partsOf] using inside
  | .loop _ condition body => by
      have inside := (List.Sublist.refl condition.withParts).append body.exprs_sublist
      simpa [Stmt.exprs, Stmt.nodes, partsOf] using inside
  | .break _ | .continue _ => List.nil_sublist _
  | .spawn _ call callee args => by simp [Stmt.exprs, Stmt.nodes, partsOf, Expr.withParts]

/-- The expressions of a block are among its nodes. -/
theorem Block.exprs_sublist : (block : Block) → block.exprs.Sublist (exprsAmong block.nodes)
  | .mk _ statements => exprsOf_sublist statements

/-- The expressions of statements are among their nodes. -/
theorem exprsOf_sublist : (statements : List Stmt) → (exprsOf statements).Sublist (exprsAmong (nodesOf statements))
  | [] => List.Sublist.refl []
  | statement :: rest => by
      rw [nodesOf, exprsAmong_append]
      exact statement.exprs_sublist.append (exprsOf_sublist rest)

end

/-- The numbers of expressions are those of nodes. -/
theorem exprsAmong_ids (nodes : List Node) : ((exprsAmong nodes).map Expr.id).Sublist (nodes.map Node.id) := by
  induction nodes with
  | nil => exact List.Sublist.refl []
  | cons node nodes ih =>
      cases node with
      | expr inner => exact ih.cons_cons inner.id
      | _ => exact ih.cons _

/-- Numbering a block gives its expressions distinct numbers. -/
theorem Block.number_exprs (block : Block) (first : Int) :
    Within first (block.number first).2 ((block.number first).1.exprs.map Expr.id) :=
  (block.number_nodes first).counts.within.sublist
    (((Block.exprs_sublist _).map Expr.id).trans (exprsAmong_ids _))

end LifecycleHooks

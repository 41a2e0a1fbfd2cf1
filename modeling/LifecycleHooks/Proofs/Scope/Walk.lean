import LifecycleHooks.Proofs.Attempt
import LifecycleHooks.Proofs.Procedure.Binding
import LifecycleHooks.Proofs.Procedure.Numbering
import Mathlib.Data.List.Perm.Subperm

/-!
# Walks

The walk over a body is described by the steps it is made of, which lead through every
body whose names are bound.  It numbers scopes and edges without repetition, and no two
edges have the same anchor.
-/

namespace LifecycleHooks

/-- The scope of a block, given what the walk finds inside of it. -/
def Walk.enclose (outer : List Frame) (isLoopBody : Bool) (id : ScopeId) (note : Note)
    (inner : Walk) : Scope :=
  { id := id
    parent := (outer.head?).map Frame.scope
    block := note.id
    isLoopBody := isLoopBody
    locals := inner.locals
    fallsThrough := inner.continues }

/-- The steps that a walk over a fragment inside the given frames is made of. -/
inductive Walks (context : WalkContext) : List Frame → NextIds → Fragment → Walk → Prop where
  | declare (scope : Frame) (outer : List Frame) (next : NextIds) (note : Note) (name : String)
      (value : Option Expr) (type : Option TypeId) (mutability : Bool)
      (binding : Option BindingId) :
      Walks context (scope :: outer) next
        (.statement (.declare note name value type mutability binding))
        (.ofDeclaration context.bindingTypes next scope.locals.length note name type binding)
  | assign (scope : Frame) (outer : List Frame) (next : NextIds) (note : Note) (target value : Expr) :
      Walks context (scope :: outer) next (.statement (.assign note target value)) { next := next }
  | expr (scope : Frame) (outer : List Frame) (next : NextIds) (note : Note) (expr : Expr) :
      Walks context (scope :: outer) next (.statement (.expr note expr)) { next := next }
  | spawn (scope : Frame) (outer : List Frame) (next : NextIds) (note : Note) (call : ExprNote)
      (callee : String) (args : List Expr) :
      Walks context (scope :: outer) next (.statement (.spawn note call callee args)) { next := next }
  | return (scope : Frame) (outer : List Frame) (next : NextIds) (note : Note)
      (value : Option Expr) :
      Walks context (scope :: outer) next (.statement (.return note value))
        (.ofExit next .return scope.scope (scope :: outer)
          (Walk.consumedBy (scope :: outer) value) note)
  | break {scope : Frame} {outer unwound : List Frame} (next : NextIds) (note : Note)
      (found : Walk.untilLoop? (scope :: outer) = some unwound) :
      Walks context (scope :: outer) next (.statement (.break note))
        (.ofExit next .break scope.scope unwound [] note)
  | continue {scope : Frame} {outer unwound : List Frame} (next : NextIds) (note : Note)
      (found : Walk.untilLoop? (scope :: outer) = some unwound) :
      Walks context (scope :: outer) next (.statement (.continue note))
        (.ofExit next .continue scope.scope unwound [] note)
  | block {scope : Frame} {outer : List Frame} {next : NextIds} {block : Block} {walk : Walk}
      (inside : Walks context (scope :: outer) next (.block false block) walk) :
      Walks context (scope :: outer) next (.statement (.block block)) walk
  | branch {scope : Frame} {outer : List Frame} {next : NextIds} (note : Note) (condition : Expr)
      {yes : Block} {walk : Walk}
      (inside : Walks context (scope :: outer) next (.block false yes) walk) :
      Walks context (scope :: outer) next (.statement (.branch note condition yes none))
        { walk with continues := true }
  | branchElse {scope : Frame} {outer : List Frame} {next : NextIds} (note : Note) (condition : Expr)
      {yes no : Block} {first second : Walk}
      (ifYes : Walks context (scope :: outer) next (.block false yes) first)
      (ifNo : Walks context (scope :: outer) first.next (.block false no) second) :
      Walks context (scope :: outer) next (.statement (.branch note condition yes (some no)))
        { continues := first.continues || second.continues
          scopes := first.scopes ++ second.scopes
          edges := first.edges ++ second.edges
          next := second.next }
  | loop {scope : Frame} {outer : List Frame} {next : NextIds} (note : Note) (condition : Expr)
      {body : Block} {walk : Walk}
      (inside : Walks context (scope :: outer) next (.block true body) walk) :
      Walks context (scope :: outer) next (.statement (.loop note condition body))
        { walk with continues := true }
  | blockEnd {outer : List Frame} {isLoopBody : Bool} {next : NextIds} (note : Note)
      {statements : List Stmt} {inner : Walk}
      (inside : Walks context (⟨next.scope, isLoopBody, []⟩ :: outer)
        { next with scope := next.scope + 1 } (.sequence statements) inner)
      (continues : inner.continues = true) :
      Walks context outer next (.block isLoopBody (.mk note statements))
        { continues := true
          scopes := inner.enclose outer isLoopBody next.scope note :: inner.scopes
          edges := inner.edges ++ [(Walk.leave inner.next .fallthrough next.scope
            [⟨next.scope, isLoopBody, inner.locals⟩] [] note).1]
          next := { inner.next with edge := inner.next.edge + 1 } }
  | blockExit {outer : List Frame} {isLoopBody : Bool} {next : NextIds} (note : Note)
      {statements : List Stmt} {inner : Walk}
      (inside : Walks context (⟨next.scope, isLoopBody, []⟩ :: outer)
        { next with scope := next.scope + 1 } (.sequence statements) inner)
      (ends : inner.continues = false) :
      Walks context outer next (.block isLoopBody (.mk note statements))
        { continues := false
          scopes := inner.enclose outer isLoopBody next.scope note :: inner.scopes
          edges := inner.edges
          next := inner.next }
  | nil (scope : Frame) (outer : List Frame) (next : NextIds) :
      Walks context (scope :: outer) next (.sequence []) { next := next }
  | next {scope : Frame} {outer : List Frame} {next : NextIds} {statement : Stmt}
      {statements : List Stmt} {first rest : Walk}
      (before : Walks context (scope :: outer) next (.statement statement) first)
      (continues : first.continues = true)
      (behind : Walks context ({ scope with locals := scope.locals ++ first.locals } :: outer)
        first.next (.sequence statements) rest) :
      Walks context (scope :: outer) next (.sequence (statement :: statements))
        { continues := rest.continues
          locals := first.locals ++ rest.locals
          scopes := first.scopes ++ rest.scopes
          edges := first.edges ++ rest.edges
          next := rest.next }
  | stop {scope : Frame} {outer : List Frame} {next : NextIds} {statement : Stmt}
      (statements : List Stmt) {first : Walk}
      (before : Walks context (scope :: outer) next (.statement statement) first)
      (ends : first.continues = false) :
      Walks context (scope :: outer) next (.sequence (statement :: statements)) first

/-- Walk over a fragment inside the given frames.  A statement stands in a scope. -/
def Fragment.walk (context : WalkContext) : Fragment → List Frame → NextIds → Except Fault Walk
  | .statement inner, scope :: outer, next => inner.walk context scope outer next
  | .sequence statements, scope :: outer, next => walkStmts context scope outer statements next
  | .block isLoopBody inner, frames, next => inner.walk context frames isLoopBody next
  | .statement _, [], _ | .sequence _, [], _ => .error .exhausted

/-- A fragment can stand in the given frames: a statement in any scope, and what leaves a
loop inside of a loop. -/
def Fragment.StandsIn (inLoop : Bool) (frames : List Frame) : Fragment → Prop
  | .block isLoopBody _ =>
      inLoop = true → isLoopBody = true ∨ frames.any Frame.isLoopBody = true
  | .statement _ | .sequence _ =>
      frames ≠ [] ∧ (inLoop = true → frames.any Frame.isLoopBody = true)

theorem untilLoop?_of_any {frames : List Frame} (inside : frames.any Frame.isLoopBody = true) :
    ∃ unwound, Walk.untilLoop? frames = some unwound := by
  induction frames with
  | nil => simp at inside
  | cons frame outer ih =>
      unfold Walk.untilLoop?
      cases isLoopBody : frame.isLoopBody with
      | true => exact ⟨[frame], by simp⟩
      | false =>
          obtain ⟨unwound, found⟩ := ih (by simpa [isLoopBody] using inside)
          exact ⟨frame :: unwound, by simp [found]⟩

namespace Walks

variable {context : WalkContext} {frames : List Frame} {next : NextIds} {fragment : Fragment}
  {walk : Walk}

/-- The steps of a walk tell its result. -/
theorem run (walks : Walks context frames next fragment walk) :
    fragment.walk context frames next = .ok walk := by
  induction walks with
  | declare => rfl
  | assign => rfl
  | expr => rfl
  | spawn => rfl
  | «return» => rfl
  | «break» next note found =>
      simp only [Fragment.walk, Stmt.walk, Walk.ofLoopExit, found]
  | «continue» next note found =>
      simp only [Fragment.walk, Stmt.walk, Walk.ofLoopExit, found]
  | block inside ih => exact ih
  | branch note condition inside ih =>
      simp only [Fragment.walk, Stmt.walk] at ih ⊢
      rw [ih, ok_bind]
      rfl
  | branchElse note condition ifYes ifNo yesIH noIH =>
      simp only [Fragment.walk, Stmt.walk] at yesIH noIH ⊢
      rw [yesIH, ok_bind, noIH, ok_bind]
      rfl
  | loop note condition inside ih =>
      simp only [Fragment.walk, Stmt.walk] at ih ⊢
      rw [ih, ok_bind]
      rfl
  | blockEnd note inside continues ih =>
      simp only [Fragment.walk, Block.walk] at ih ⊢
      rw [ih, ok_bind, if_pos continues]
      rfl
  | blockExit note inside ends ih =>
      simp only [Fragment.walk, Block.walk] at ih ⊢
      rw [ih, ok_bind, if_neg (by simp [ends])]
      rfl
  | nil => rfl
  | next before continues behind beforeIH behindIH =>
      simp only [Fragment.walk, walkStmts] at beforeIH behindIH ⊢
      rw [beforeIH, ok_bind, if_pos continues, behindIH, ok_bind]
      rfl
  | stop statements before ends ih =>
      simp only [Fragment.walk, walkStmts] at ih ⊢
      rw [ih, ok_bind, if_neg (by simp [ends])]
      rfl

end Walks

/-- Every fragment whose names are bound can be walked over. -/
theorem Binds.walks (context : WalkContext) {inLoop : Bool} {first after : BindingId}
    {visible seen : Names} {fragment : Fragment}
    (binds : Binds inLoop first visible fragment after seen) {frames : List Frame}
    (stands : fragment.StandsIn inLoop frames) (next : NextIds) :
    ∃ walk, Walks context frames next fragment walk := by
  induction binds generalizing frames next with
  | declare =>
      obtain ⟨scope, outer, rfl⟩ := List.exists_cons_of_ne_nil stands.1
      exact ⟨_, .declare ..⟩
  | assign =>
      obtain ⟨scope, outer, rfl⟩ := List.exists_cons_of_ne_nil stands.1
      exact ⟨_, .assign ..⟩
  | expr =>
      obtain ⟨scope, outer, rfl⟩ := List.exists_cons_of_ne_nil stands.1
      exact ⟨_, .expr ..⟩
  | spawn =>
      obtain ⟨scope, outer, rfl⟩ := List.exists_cons_of_ne_nil stands.1
      exact ⟨_, .spawn ..⟩
  | «return» =>
      obtain ⟨scope, outer, rfl⟩ := List.exists_cons_of_ne_nil stands.1
      exact ⟨_, .return ..⟩
  | «break» =>
      obtain ⟨scope, outer, rfl⟩ := List.exists_cons_of_ne_nil stands.1
      obtain ⟨unwound, found⟩ := untilLoop?_of_any (stands.2 rfl)
      exact ⟨_, .break next _ found⟩
  | «continue» =>
      obtain ⟨scope, outer, rfl⟩ := List.exists_cons_of_ne_nil stands.1
      obtain ⟨unwound, found⟩ := untilLoop?_of_any (stands.2 rfl)
      exact ⟨_, .continue next _ found⟩
  | block inside ih =>
      obtain ⟨scope, outer, rfl⟩ := List.exists_cons_of_ne_nil stands.1
      obtain ⟨walk, walks⟩ := ih (fun inLoop => .inr (stands.2 inLoop)) next
      exact ⟨_, .block walks⟩
  | branch note condition inside ih =>
      obtain ⟨scope, outer, rfl⟩ := List.exists_cons_of_ne_nil stands.1
      obtain ⟨walk, walks⟩ := ih (fun inLoop => .inr (stands.2 inLoop)) next
      exact ⟨_, .branch _ _ walks⟩
  | branchElse note condition ifYes ifNo yesIH noIH =>
      obtain ⟨scope, outer, rfl⟩ := List.exists_cons_of_ne_nil stands.1
      obtain ⟨first, yesWalks⟩ := yesIH (fun inLoop => .inr (stands.2 inLoop)) next
      obtain ⟨second, noWalks⟩ := noIH (fun inLoop => .inr (stands.2 inLoop)) first.next
      exact ⟨_, .branchElse _ _ yesWalks noWalks⟩
  | loop inLoop note condition inside ih =>
      obtain ⟨scope, outer, rfl⟩ := List.exists_cons_of_ne_nil stands.1
      obtain ⟨walk, walks⟩ := ih (fun _ => .inl rfl) next
      exact ⟨_, .loop _ _ walks⟩
  | scope isLoopBody note inside ih =>
      obtain ⟨walk, walks⟩ := ih
        (show Fragment.StandsIn _ (⟨next.scope, isLoopBody, []⟩ :: frames) (.sequence _) from
          ⟨by simp, fun loops => by simpa using stands loops⟩)
        { next with scope := next.scope + 1 }
      cases continues : walk.continues with
      | true => exact ⟨_, .blockEnd _ walks continues⟩
      | false => exact ⟨_, .blockExit _ walks continues⟩
  | nil =>
      obtain ⟨scope, outer, rfl⟩ := List.exists_cons_of_ne_nil stands.1
      exact ⟨_, .nil ..⟩
  | cons before behind beforeIH behindIH =>
      obtain ⟨scope, outer, rfl⟩ := List.exists_cons_of_ne_nil stands.1
      obtain ⟨first, firstWalks⟩ := beforeIH stands next
      cases continues : first.continues with
      | true =>
          obtain ⟨rest, restWalks⟩ := behindIH
            (show Fragment.StandsIn _ ({ scope with locals := scope.locals ++ first.locals } :: outer)
              (.sequence _) from ⟨by simp, stands.2⟩)
            first.next
          exact ⟨_, .next firstWalks continues restWalks⟩
      | false => exact ⟨_, .stop _ firstWalks continues⟩

section Declarations

variable (types : BindingTypes) (next : NextIds) (order : Nat) (note : Note) (name : String)
  (type : Option TypeId) (binding : Option BindingId)

@[simp]
theorem Walk.ofDeclaration_scopes :
    (Walk.ofDeclaration types next order note name type binding).scopes = [] := by
  unfold ofDeclaration
  split <;> rfl

@[simp]
theorem Walk.ofDeclaration_edges :
    (Walk.ofDeclaration types next order note name type binding).edges = [] := by
  unfold ofDeclaration
  split <;> rfl

@[simp]
theorem Walk.ofDeclaration_continues :
    (Walk.ofDeclaration types next order note name type binding).continues = true := by
  unfold ofDeclaration
  split <;> rfl

@[simp]
theorem Walk.ofDeclaration_next_scope :
    (Walk.ofDeclaration types next order note name type binding).next.scope = next.scope := by
  unfold ofDeclaration
  split <;> rfl

@[simp]
theorem Walk.ofDeclaration_next_edge :
    (Walk.ofDeclaration types next order note name type binding).next.edge = next.edge := by
  unfold ofDeclaration
  split <;> rfl

end Declarations

/-- A walk numbers its scopes and its edges one after the other. -/
structure Walk.Numbers (next : NextIds) (walk : Walk) : Prop where
  scopes : Within next.scope walk.next.scope (walk.scopes.map Scope.id)
  edges : Within next.edge walk.next.edge (walk.edges.map ExitEdge.id)

namespace Walks

variable {context : WalkContext} {frames : List Frame} {next : NextIds} {fragment : Fragment}
  {walk : Walk}

theorem numbers_nothing (next : NextIds) : Walk.Numbers next { next := next } :=
  ⟨.nil (Int.le_refl _), .nil (Int.le_refl _)⟩

theorem numbers_exit (next : NextIds) (kind : ExitKind) (origin : ScopeId)
    (unwound : List Frame) (consumed : List BindingId) (note : Note) :
    (Walk.ofExit next kind origin unwound consumed note).Numbers next :=
  ⟨.nil (Int.le_refl _), .single next.edge⟩

theorem numbers (walks : Walks context frames next fragment walk) : walk.Numbers next := by
  induction walks with
  | declare => exact ⟨by simpa using .nil (Int.le_refl _), by simpa using .nil (Int.le_refl _)⟩
  | assign => exact numbers_nothing _
  | expr => exact numbers_nothing _
  | spawn => exact numbers_nothing _
  | «return» => exact numbers_exit ..
  | «break» => exact numbers_exit ..
  | «continue» => exact numbers_exit ..
  | block inside ih => exact ih
  | branch note condition inside ih => exact ⟨ih.scopes, ih.edges⟩
  | branchElse note condition ifYes ifNo yesIH noIH =>
      refine ⟨?_, ?_⟩
      · rw [List.map_append]
        exact yesIH.scopes.append noIH.scopes
      · rw [List.map_append]
        exact yesIH.edges.append noIH.edges
  | loop note condition inside ih => exact ⟨ih.scopes, ih.edges⟩
  | blockEnd note inside continues ih =>
      refine ⟨ih.scopes.cons, ?_⟩
      rw [List.map_append]
      exact ih.edges.concat
  | blockExit note inside ends ih => exact ⟨ih.scopes.cons, ih.edges⟩
  | nil => exact numbers_nothing _
  | next before continues behind beforeIH behindIH =>
      refine ⟨?_, ?_⟩
      · rw [List.map_append]
        exact beforeIH.scopes.append behindIH.scopes
      · rw [List.map_append]
        exact beforeIH.edges.append behindIH.edges
  | stop statements before ends ih => exact ih

end Walks

/-- The nodes of a fragment at which control can leave scopes. -/
def Fragment.anchors : Fragment → List NodeId
  | .statement inner => inner.anchors
  | .block _ inner => inner.anchors
  | .sequence statements => anchorsOf statements

/-- Edges are anchored at nodes of the fragment, at most one at each. -/
theorem Walks.anchors {context : WalkContext} {frames : List Frame} {next : NextIds}
    {fragment : Fragment} {walk : Walk} (walks : Walks context frames next fragment walk) :
    (walk.edges.map ExitEdge.anchor).Subperm fragment.anchors := by
  induction walks with
  | declare => simp [List.nil_subperm]
  | assign => exact List.nil_subperm
  | expr => exact List.nil_subperm
  | spawn => exact List.nil_subperm
  | «return» => exact List.Subperm.refl _
  | «break» => exact List.Subperm.refl _
  | «continue» => exact List.Subperm.refl _
  | block inside ih => exact ih
  | branch note condition inside ih => exact ih
  | branchElse note condition ifYes ifNo yesIH noIH =>
      rw [List.map_append]
      exact yesIH.append noIH
  | loop note condition inside ih => exact ih
  | blockEnd note inside continues ih =>
      rw [List.map_append]
      refine (List.perm_append_singleton _ _).subperm.trans ?_
      exact (List.subperm_cons _).mpr ih
  | blockExit note inside ends ih => exact ih.trans (List.sublist_cons_self _ _).subperm
  | nil => exact List.nil_subperm
  | next before continues behind beforeIH behindIH =>
      rw [List.map_append]
      exact beforeIH.append behindIH
  | stop statements before ends ih =>
      exact ih.trans (List.sublist_append_left _ _).subperm

/-- In a numbered body no two edges have the same anchor. -/
theorem Walks.anchors_nodup {context : WalkContext} {frames : List Frame} {next : NextIds}
    {isLoopBody : Bool} {block : Block} {first : NodeId} {walk : Walk}
    (walks : Walks context frames next (.block isLoopBody (block.number first).1) walk) :
    (walk.edges.map ExitEdge.anchor).Nodup := by
  obtain ⟨chosen, same, inside⟩ := walks.anchors
  exact same.nodup_iff.mp (inside.nodup (block.number_anchors first).distinct)

end LifecycleHooks

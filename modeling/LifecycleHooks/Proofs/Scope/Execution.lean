import LifecycleHooks.Scope.Graph

/-!
# Executions

An execution of a body takes either way at each condition and any number of rounds
of each loop.  Where control leaves scopes, at a statement or at the end of a block,
the destructions that are planned there take place.  What happens to the locals is
recorded in order, and is disciplined when every guarded local is destroyed or
handed over exactly once, the latest first.
-/

namespace LifecycleHooks

/-- A fragment of a body: a statement, a block that may be the body of a loop, or the
statements that are left of a block. -/
inductive Fragment where
  | statement (statement : Stmt)
  | block (isLoopBody : Bool) (block : Block)
  | sequence (statements : List Stmt)

/-- What happens to a binding: it comes to life with its declaration, and is destroyed
or handed over to the caller. -/
inductive LocalEvent where
  | start (binding : BindingId)
  | destroy (binding : BindingId)
  | handOver (binding : BindingId)
deriving DecidableEq

/-- The binding that a `return` of the given value names. -/
def returned? : Option Expr → Option BindingId
  | some (.var _ _ binding) => binding
  | _ => none

/-- The executions of a fragment of a body, when the given bindings are destroyed at each
node where control leaves scopes.  An execution tells what happens to the locals and
how control leaves the fragment. -/
inductive Runs (destroys : NodeId → List BindingId) :
    Fragment → List LocalEvent → ExitKind → Prop where
  | declare (note : Note) (name : String) (value : Option Expr) (type : Option TypeId)
      (mutability : Bool) (binding : Option BindingId) :
      Runs destroys (.statement (.declare note name value type mutability binding))
        (binding.toList.map .start) .fallthrough
  | assign (note : Note) (target value : Expr) :
      Runs destroys (.statement (.assign note target value)) [] .fallthrough
  | expr (note : Note) (expr : Expr) :
      Runs destroys (.statement (.expr note expr)) [] .fallthrough
  | spawn (note : Note) (call : ExprNote) (callee : String) (args : List Expr) :
      Runs destroys (.statement (.spawn note call callee args)) [] .fallthrough
  | return (note : Note) (value : Option Expr) :
      Runs destroys (.statement (.return note value))
        ((returned? value).toList.map .handOver ++ (destroys note.id).map .destroy) .return
  | break (note : Note) :
      Runs destroys (.statement (.break note)) ((destroys note.id).map .destroy) .break
  | continue (note : Note) :
      Runs destroys (.statement (.continue note)) ((destroys note.id).map .destroy) .continue
  | block {block : Block} {events : List LocalEvent} {exit : ExitKind}
      (inside : Runs destroys (.block false block) events exit) :
      Runs destroys (.statement (.block block)) events exit
  | branchYes (note : Note) (condition : Expr) {yes : Block} (no : Option Block)
      {events : List LocalEvent} {exit : ExitKind}
      (inside : Runs destroys (.block false yes) events exit) :
      Runs destroys (.statement (.branch note condition yes no)) events exit
  | branchNo (note : Note) (condition : Expr) (yes : Block) {no : Block}
      {events : List LocalEvent} {exit : ExitKind}
      (inside : Runs destroys (.block false no) events exit) :
      Runs destroys (.statement (.branch note condition yes (some no))) events exit
  | branchPast (note : Note) (condition : Expr) (yes : Block) :
      Runs destroys (.statement (.branch note condition yes none)) [] .fallthrough
  | loopDone (note : Note) (condition : Expr) (body : Block) :
      Runs destroys (.statement (.loop note condition body)) [] .fallthrough
  | loopAgain {note : Note} {condition : Expr} {body : Block}
      {first rest : List LocalEvent} {exit last : ExitKind}
      (round : Runs destroys (.block true body) first exit)
      (again : exit = .fallthrough ∨ exit = .continue)
      (onwards : Runs destroys (.statement (.loop note condition body)) rest last) :
      Runs destroys (.statement (.loop note condition body)) (first ++ rest) last
  | loopBreak (note : Note) (condition : Expr) {body : Block} {events : List LocalEvent}
      (round : Runs destroys (.block true body) events .break) :
      Runs destroys (.statement (.loop note condition body)) events .fallthrough
  | loopReturn (note : Note) (condition : Expr) {body : Block} {events : List LocalEvent}
      (round : Runs destroys (.block true body) events .return) :
      Runs destroys (.statement (.loop note condition body)) events .return
  | blockEnd (isLoopBody : Bool) (note : Note) {statements : List Stmt}
      {events : List LocalEvent}
      (inside : Runs destroys (.sequence statements) events .fallthrough) :
      Runs destroys (.block isLoopBody (.mk note statements))
        (events ++ (destroys note.id).map .destroy) .fallthrough
  | blockExit (isLoopBody : Bool) (note : Note) {statements : List Stmt}
      {events : List LocalEvent} {exit : ExitKind}
      (inside : Runs destroys (.sequence statements) events exit)
      (leaves : exit ≠ .fallthrough) :
      Runs destroys (.block isLoopBody (.mk note statements)) events exit
  | nil : Runs destroys (.sequence []) [] .fallthrough
  | next {statement : Stmt} {statements : List Stmt} {first rest : List LocalEvent}
      {exit : ExitKind}
      (before : Runs destroys (.statement statement) first .fallthrough)
      (behind : Runs destroys (.sequence statements) rest exit) :
      Runs destroys (.sequence (statement :: statements)) (first ++ rest) exit
  | stop {statement : Stmt} (statements : List Stmt) {events : List LocalEvent}
      {exit : ExitKind} (before : Runs destroys (.statement statement) events exit)
      (leaves : exit ≠ .fallthrough) :
      Runs destroys (.sequence (statement :: statements)) events exit

/-- What happens to the guarded locals is disciplined when each comes to life only while
it is not live, only the latest live one is ever destroyed, and only live ones are
handed over.  The live locals stand latest first. -/
inductive Disciplined (guarded : BindingId → Prop) :
    (live : List BindingId) → List LocalEvent → (left : List BindingId) → Prop where
  | done (live : List BindingId) : Disciplined guarded live [] live
  | start {live left : List BindingId} {binding : BindingId} {events : List LocalEvent}
      (watched : guarded binding) (fresh : binding ∉ live)
      (rest : Disciplined guarded (binding :: live) events left) :
      Disciplined guarded live (.start binding :: events) left
  | ignore {live left : List BindingId} {binding : BindingId} {events : List LocalEvent}
      (unwatched : ¬ guarded binding) (rest : Disciplined guarded live events left) :
      Disciplined guarded live (.start binding :: events) left
  | destroy {live left : List BindingId} {binding : BindingId} {events : List LocalEvent}
      (rest : Disciplined guarded live events left) :
      Disciplined guarded (binding :: live) (.destroy binding :: events) left
  | handOver {live left : List BindingId} {binding : BindingId} {events : List LocalEvent}
      (present : guarded binding → binding ∈ live)
      (rest : Disciplined guarded (live.erase binding) events left) :
      Disciplined guarded live (.handOver binding :: events) left

namespace Disciplined

variable {guarded : BindingId → Prop} {live middle left : List BindingId}
  {events others : List LocalEvent}

theorem append (first : Disciplined guarded live events middle)
    (second : Disciplined guarded middle others left) :
    Disciplined guarded live (events ++ others) left := by
  induction first with
  | done live => exact second
  | start watched fresh rest ih => exact .start watched fresh (ih second)
  | ignore unwatched rest ih => exact .ignore unwatched (ih second)
  | destroy rest ih => exact .destroy (ih second)
  | handOver present rest ih => exact .handOver present (ih second)

/-- The latest live locals can be destroyed one after the other. -/
theorem destroys (bindings live : List BindingId) :
    Disciplined guarded (bindings ++ live) (bindings.map .destroy) live := by
  induction bindings with
  | nil => exact .done live
  | cons binding bindings ih => exact .destroy ih

/-- Only guarded locals are destroyed. -/
theorem guarded_of_destroy (disciplined : Disciplined guarded live events left)
    (watched : ∀ binding ∈ live, guarded binding) {binding : BindingId}
    (destroyed : .destroy binding ∈ events) : guarded binding := by
  induction disciplined with
  | done live => simp at destroyed
  | start watchedFirst fresh rest ih =>
      refine ih (fun other member => ?_) (by simpa using destroyed)
      rcases List.mem_cons.mp member with rfl | before
      · exact watchedFirst
      · exact watched other before
  | ignore unwatched rest ih => exact ih watched (by simpa using destroyed)
  | destroy rest ih =>
      rcases List.mem_cons.mp destroyed with same | later
      · cases same
        exact watched binding (by simp)
      · exact ih (fun other member => watched other (List.mem_cons_of_mem _ member)) later
  | handOver present rest ih =>
      exact ih (fun other member => watched other (List.mem_of_mem_erase member))
        (by simpa using destroyed)

/-- Every instance of a guarded local that came to life, and is not left, ended exactly
once: it was destroyed or handed over. -/
theorem count_start (disciplined : Disciplined guarded live events left)
    {binding : BindingId} (watched : guarded binding) :
    live.count binding + events.count (.start binding) =
      events.count (.destroy binding) + events.count (.handOver binding) + left.count binding := by
  induction disciplined with
  | done live => simp
  | @start live left other events watchedOther fresh rest ih =>
      by_cases same : other = binding
      · subst same
        simp only [List.count_cons_self] at ih
        simp only [List.count_cons_self, ne_eq, reduceCtorEq, not_false_eq_true,
          List.count_cons_of_ne]
        omega
      · rw [List.count_cons_of_ne same] at ih
        simpa [List.count_cons, same] using ih
  | @ignore live left other events unwatched rest ih =>
      have differ : other ≠ binding := by
        rintro rfl
        exact unwatched watched
      simpa [List.count_cons, differ] using ih
  | @destroy live left other events rest ih =>
      by_cases same : other = binding
      · subst same
        simp only [List.count_cons_self, ne_eq, reduceCtorEq, not_false_eq_true,
          List.count_cons_of_ne]
        omega
      · simpa [List.count_cons, same] using ih
  | @handOver live left other events present rest ih =>
      by_cases same : other = binding
      · subst same
        have positive := List.count_pos_iff.mpr (present watched)
        rw [List.count_erase_self] at ih
        simp only [List.count_cons_self, ne_eq, reduceCtorEq, not_false_eq_true,
          List.count_cons_of_ne]
        omega
      · rw [List.count_erase_of_ne (Ne.symm same)] at ih
        simpa [List.count_cons, same] using ih

end Disciplined
end LifecycleHooks

import LifecycleHooks.Proofs.Scope.Execution

/-!
# Released locals

A fragment of a body releases its locals when, whichever way control leaves it, the
planned destructions take away exactly the live locals of the scopes that are left.
This is checked along the text, and it makes every execution disciplined.
-/

namespace LifecycleHooks

/-- A fragment of a body, entered with the given live locals, releases what it has to: a
`return` all that is live but for what it hands over, a `break` or `continue` all but
what is live outside of the loop, the end of a block what the block declared.  What is
left is live where control continues behind the fragment, if it does. -/
inductive Releases (guarded : BindingId → Prop) (destroys : NodeId → List BindingId) :
    (outside : Option (List BindingId)) → (live : List BindingId) → Fragment →
      (left : Option (List BindingId)) → Prop where
  | declare (outside : Option (List BindingId)) {live : List BindingId} (note : Note)
      (name : String) (value : Option Expr) (type : Option TypeId) (mutability : Bool)
      {binding : BindingId} (watched : guarded binding) (fresh : binding ∉ live) :
      Releases guarded destroys outside live
        (.statement (.declare note name value type mutability (some binding)))
        (some (binding :: live))
  | declarePlain (outside : Option (List BindingId)) (live : List BindingId) (note : Note)
      (name : String) (value : Option Expr) (type : Option TypeId) (mutability : Bool)
      {binding : BindingId} (unwatched : ¬ guarded binding) :
      Releases guarded destroys outside live
        (.statement (.declare note name value type mutability (some binding))) (some live)
  | assign (outside : Option (List BindingId)) (live : List BindingId) (note : Note)
      (target value : Expr) :
      Releases guarded destroys outside live (.statement (.assign note target value)) (some live)
  | expr (outside : Option (List BindingId)) (live : List BindingId) (note : Note)
      (expr : Expr) :
      Releases guarded destroys outside live (.statement (.expr note expr)) (some live)
  | spawn (outside : Option (List BindingId)) (live : List BindingId) (note : Note)
      (call : ExprNote) (callee : String) (args : List Expr) :
      Releases guarded destroys outside live (.statement (.spawn note call callee args))
        (some live)
  | return (outside : Option (List BindingId)) {live : List BindingId} {note : Note}
      {value : Option Expr}
      (present : ∀ binding ∈ returned? value, guarded binding → binding ∈ live)
      (released : destroys note.id = (returned? value).elim live live.erase) :
      Releases guarded destroys outside live (.statement (.return note value)) none
  | break {outside live : List BindingId} {note : Note}
      (released : live = destroys note.id ++ outside) :
      Releases guarded destroys (some outside) live (.statement (.break note)) none
  | continue {outside live : List BindingId} {note : Note}
      (released : live = destroys note.id ++ outside) :
      Releases guarded destroys (some outside) live (.statement (.continue note)) none
  | block {outside : Option (List BindingId)} {live : List BindingId} {block : Block}
      {left : Option (List BindingId)}
      (inside : Releases guarded destroys outside live (.block false block) left) :
      Releases guarded destroys outside live (.statement (.block block)) left
  | branch {outside : Option (List BindingId)} {live : List BindingId} (note : Note)
      (condition : Expr) {yes : Block} {left : Option (List BindingId)}
      (inside : Releases guarded destroys outside live (.block false yes) left) :
      Releases guarded destroys outside live (.statement (.branch note condition yes none))
        (some live)
  | branchElse {outside : Option (List BindingId)} {live : List BindingId} (note : Note)
      (condition : Expr) {yes no : Block} {left otherwise : Option (List BindingId)}
      (ifYes : Releases guarded destroys outside live (.block false yes) left)
      (ifNo : Releases guarded destroys outside live (.block false no) otherwise) :
      Releases guarded destroys outside live
        (.statement (.branch note condition yes (some no))) (left.or otherwise)
  | loop (outside : Option (List BindingId)) {live : List BindingId} (note : Note)
      (condition : Expr) {body : Block} {left : Option (List BindingId)}
      (inside : Releases guarded destroys (some live) live (.block true body) left) :
      Releases guarded destroys outside live (.statement (.loop note condition body))
        (some live)
  | blockEnd {outside : Option (List BindingId)} {live inner : List BindingId}
      (isLoopBody : Bool) {note : Note} {statements : List Stmt}
      (inside : Releases guarded destroys outside live (.sequence statements) (some inner))
      (released : inner = destroys note.id ++ live) :
      Releases guarded destroys outside live (.block isLoopBody (.mk note statements))
        (some live)
  | blockExit {outside : Option (List BindingId)} {live : List BindingId}
      (isLoopBody : Bool) (note : Note) {statements : List Stmt}
      (inside : Releases guarded destroys outside live (.sequence statements) none) :
      Releases guarded destroys outside live (.block isLoopBody (.mk note statements)) none
  | nil (outside : Option (List BindingId)) (live : List BindingId) :
      Releases guarded destroys outside live (.sequence []) (some live)
  | next {outside : Option (List BindingId)} {live middle : List BindingId}
      {statement : Stmt} {statements : List Stmt} {left : Option (List BindingId)}
      (before : Releases guarded destroys outside live (.statement statement) (some middle))
      (behind : Releases guarded destroys outside middle (.sequence statements) left) :
      Releases guarded destroys outside live (.sequence (statement :: statements)) left
  | stop {outside : Option (List BindingId)} {live : List BindingId} {statement : Stmt}
      (statements : List Stmt)
      (before : Releases guarded destroys outside live (.statement statement) none) :
      Releases guarded destroys outside live (.sequence (statement :: statements)) none

/-- What is live after control has left a fragment of a body in the given way. -/
def Arrives (outside left : Option (List BindingId)) : ExitKind → List BindingId → Prop
  | .fallthrough, final => left = some final
  | .return, final => final = []
  | .break, final | .continue, final => outside = some final

section Soundness

variable {guarded : BindingId → Prop} {destroys : NodeId → List BindingId}
  {outside left : Option (List BindingId)} {live : List BindingId} {fragment : Fragment}
  {events : List LocalEvent} {exit : ExitKind}

/-- Behind a block the same locals are live as before it. -/
theorem Releases.left_of_block {isLoopBody : Bool} {block : Block}
    (releases : Releases guarded destroys outside live (.block isLoopBody block) left) :
    left = none ∨ left = some live := by
  cases releases with
  | blockEnd => exact .inr rfl
  | blockExit => exact .inl rfl

theorem Arrives.of_ne_fallthrough {other : Option (List BindingId)} {final : List BindingId}
    (arrives : Arrives outside left exit final) (leaves : exit ≠ .fallthrough) :
    Arrives outside other exit final := by
  cases exit with
  | fallthrough => exact absurd rfl leaves
  | «return» => exact arrives
  | «break» => exact arrives
  | «continue» => exact arrives

/-- Control may continue behind a larger fragment where it continues behind a part of
it. -/
theorem Arrives.weaken {wider : Option (List BindingId)} {final : List BindingId}
    (arrives : Arrives outside left exit final) (wide : left = none ∨ left = wider) :
    Arrives outside wider exit final := by
  by_cases falls : exit = .fallthrough
  · subst falls
    rcases wide with rfl | rfl
    · cases arrives
    · exact arrives
  · exact arrives.of_ne_fallthrough falls

/-- In a fragment of a body that releases its locals, whatever happens to them is
disciplined, and only what has to be is live afterwards. -/
theorem Runs.disciplined (runs : Runs destroys fragment events exit)
    (releases : Releases guarded destroys outside live fragment left) :
    ∃ final, Arrives outside left exit final ∧ Disciplined guarded live events final := by
  induction runs generalizing outside live left with
  | declare note name value type mutability binding =>
      cases releases with
      | declare _ _ _ _ _ _ watched fresh =>
          exact ⟨_, rfl, .start watched fresh (.done _)⟩
      | declarePlain _ _ _ _ _ _ _ unwatched => exact ⟨_, rfl, .ignore unwatched (.done _)⟩
  | assign note target value =>
      cases releases
      exact ⟨live, rfl, .done live⟩
  | expr note expr =>
      cases releases
      exact ⟨live, rfl, .done live⟩
  | spawn note call callee args =>
      cases releases
      exact ⟨live, rfl, .done live⟩
  | «return» note value =>
      cases releases with
      | «return» _ present released =>
          refine ⟨[], rfl, ?_⟩
          rw [released]
          cases returned : returned? value with
          | none => simpa using Disciplined.destroys live []
          | some binding =>
              refine .handOver (present binding returned) ?_
              simpa using Disciplined.destroys (live.erase binding) []
  | «break» note =>
      cases releases with
      | «break» released => exact ⟨_, rfl, released ▸ Disciplined.destroys _ _⟩
  | «continue» note =>
      cases releases with
      | «continue» released => exact ⟨_, rfl, released ▸ Disciplined.destroys _ _⟩
  | block inside ih =>
      cases releases with
      | block released => exact ih released
  | branchYes note condition no inside ih =>
      cases releases with
      | branch _ _ released =>
          obtain ⟨final, arrives, disciplined⟩ := ih released
          exact ⟨final, arrives.weaken released.left_of_block, disciplined⟩
      | branchElse _ _ released others =>
          obtain ⟨final, arrives, disciplined⟩ := ih released
          refine ⟨final, arrives.weaken ?_, disciplined⟩
          rcases released.left_of_block with rfl | rfl <;> simp
  | branchNo note condition yes inside ih =>
      cases releases with
      | branchElse _ _ others released =>
          obtain ⟨final, arrives, disciplined⟩ := ih released
          refine ⟨final, arrives.weaken ?_, disciplined⟩
          rcases others.left_of_block with rfl | rfl
          · simp
          · exact released.left_of_block
  | branchPast note condition yes =>
      cases releases
      exact ⟨live, rfl, .done live⟩
  | loopDone note condition body =>
      cases releases
      exact ⟨live, rfl, .done live⟩
  | loopAgain round again onwards roundIH onwardsIH =>
      cases releases with
      | loop _ _ _ released =>
          obtain ⟨middle, arrives, disciplined⟩ := roundIH released
          -- The next round starts with what was live before the loop.
          have same : middle = live := by
            rcases again with rfl | rfl
            · rcases released.left_of_block with rfl | rfl
              · cases arrives
              · exact (Option.some.inj arrives).symm
            · exact (Option.some.inj arrives).symm
          subst same
          obtain ⟨final, reaches, rest⟩ := onwardsIH (.loop outside _ _ released)
          exact ⟨final, reaches, disciplined.append rest⟩
  | loopBreak note condition round ih =>
      cases releases with
      | loop _ _ _ released =>
          obtain ⟨final, arrives, disciplined⟩ := ih released
          exact ⟨final, arrives, disciplined⟩
  | loopReturn note condition round ih =>
      cases releases with
      | loop _ _ _ released =>
          obtain ⟨final, arrives, disciplined⟩ := ih released
          exact ⟨final, arrives, disciplined⟩
  | blockEnd isLoopBody note inside ih =>
      cases releases with
      | blockEnd _ inside released =>
          obtain ⟨final, arrives, disciplined⟩ := ih inside
          obtain rfl := Option.some.inj arrives
          exact ⟨_, rfl, disciplined.append (released ▸ Disciplined.destroys _ live)⟩
      | blockExit _ _ inside =>
          obtain ⟨final, arrives, disciplined⟩ := ih inside
          cases arrives
  | blockExit isLoopBody note inside leaves ih =>
      cases releases with
      | blockEnd _ inside released =>
          obtain ⟨final, arrives, disciplined⟩ := ih inside
          exact ⟨final, arrives.of_ne_fallthrough leaves, disciplined⟩
      | blockExit _ _ inside =>
          obtain ⟨final, arrives, disciplined⟩ := ih inside
          exact ⟨final, arrives.of_ne_fallthrough leaves, disciplined⟩
  | nil =>
      cases releases
      exact ⟨live, rfl, .done live⟩
  | next before behind beforeIH behindIH =>
      cases releases with
      | next first rest =>
          obtain ⟨middle, arrives, disciplined⟩ := beforeIH first
          obtain rfl := Option.some.inj arrives
          obtain ⟨final, reaches, others⟩ := behindIH rest
          exact ⟨final, reaches, disciplined.append others⟩
      | stop _ first =>
          obtain ⟨middle, arrives, disciplined⟩ := beforeIH first
          cases arrives
  | stop statements before leaves ih =>
      cases releases with
      | next first rest =>
          obtain ⟨final, arrives, disciplined⟩ := ih first
          exact ⟨final, arrives.of_ne_fallthrough leaves, disciplined⟩
      | stop _ first =>
          obtain ⟨final, arrives, disciplined⟩ := ih first
          exact ⟨final, arrives.of_ne_fallthrough leaves, disciplined⟩

end Soundness
end LifecycleHooks

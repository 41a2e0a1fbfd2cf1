import LifecycleHooks.Proofs.Recurrence
import LifecycleHooks.Proofs.Types.Unfolding

/-!
# Questions to the table that are asked again

A question about a type may make new types, and it may note bodies and nesting depths, before it
fails for want of a type.  Asked again, it finds what it made and what it noted, so it goes the
same way and fails for want of the same type, and nothing is made or noted a second time.

No more is asked of the table than that it is one: it may hold types whose parts do not exist,
and depths that were noted wrongly.
-/

namespace LifecycleHooks

open Attempt

namespace TypeTable

/-- The nesting depth that is noted for a type. -/
def notedDepth? (table : TypeTable) (id : TypeId) : Option Nat := (table.cell? id).bind Cell.depth

/-- The nesting depth of a type as it follows from the depths that are noted. -/
inductive Nests (table : TypeTable) : TypeId → Nat → Prop where
  | noted {id : TypeId} {depth : Nat} (known : table.notedDepth? id = some depth) : Nests table id depth
  | node {id : TypeId} {type : TypeDef} {depths : TypeId → Nat} (unknown : table.notedDepth? id = none)
      (found : table.get? id = some type) (operands : ∀ operand ∈ type.operands, Nests table operand (depths operand)) :
      Nests table id (if type.operands.isEmpty then 0 else (type.operands.map depths).foldl max 0 + 1)

/-- A table that has all depths that another one has noted. -/
def KeepsDepths (table larger : TypeTable) : Prop :=
  ∀ id depth, table.notedDepth? id = some depth → larger.notedDepth? id = some depth

/-- A table of the same types with all depths that another one has noted, and with further ones that follow from
these. -/
structure Notes (table larger : TypeTable) : Prop where
  types : ∀ id, larger.get? id = table.get? id
  kept : table.KeepsDepths larger
  right : ∀ id depth, larger.notedDepth? id = some depth → table.Nests id depth

/-- A table that holds all types of another one, with all bodies and depths that were noted there. -/
structure KeepsNotes (table larger : TypeTable) : Prop where
  extends_ : table.Extends larger
  depths : table.KeepsDepths larger

instance : IsPreorder TypeTable KeepsDepths where
  refl _ _ _ known := known
  trans _ _ _ first second id depth known := second id depth (first id depth known)

instance : IsPreorder TypeTable KeepsNotes where
  refl table := ⟨.refl table, refl_of KeepsDepths table⟩
  trans _ _ _ first second := ⟨first.extends_.trans second.extends_, trans_of KeepsDepths first.depths second.depths⟩

variable {table larger : TypeTable} {id : TypeId}

section Depths

theorem Nests.unique {depth other : Nat} (first : table.Nests id depth) (second : table.Nests id other) :
    depth = other := by
  induction first generalizing other with
  | noted known =>
      cases second with
      | noted again => exact Option.some.inj (known.symm.trans again)
      | node unknown _ _ => cases known.symm.trans unknown
  | node unknown found operands ih =>
      cases second with
      | noted known => cases known.symm.trans unknown
      | node _ again others =>
          obtain rfl := Option.some.inj (found.symm.trans again)
          rw [List.map_congr_left fun operand member => ih operand member (others operand member)]

theorem Notes.unnoted (notes : table.Notes larger) (unknown : larger.notedDepth? id = none) :
    table.notedDepth? id = none := by
  rw [Option.eq_none_iff_forall_ne_some] at unknown ⊢
  exact fun depth known => unknown depth (notes.kept id depth known)

theorem Nests.before {depth : Nat} (notes : table.Notes larger) (nests : larger.Nests id depth) :
    table.Nests id depth := by
  induction nests with
  | noted known => exact notes.right _ _ known
  | @node id type depths unknown found operands ih =>
      exact .node (notes.unnoted unknown) (notes.types id ▸ found) ih

theorem Nests.after {depth : Nat} (notes : table.Notes larger) (nests : table.Nests id depth) :
    larger.Nests id depth := by
  induction nests with
  | noted known => exact .noted (notes.kept _ _ known)
  | @node id type depths unknown found operands ih =>
      cases noted : larger.notedDepth? id with
      | none => exact .node noted ((notes.types id).trans found) ih
      | some depth =>
          obtain rfl := (notes.right id depth noted).unique (.node unknown found operands)
          exact .noted noted

instance : IsPreorder TypeTable Notes where
  refl _ := ⟨fun _ => rfl, fun _ _ known => known, fun _ _ known => .noted known⟩
  trans _ _ _ first second :=
    { types := fun id => (second.types id).trans (first.types id)
      kept := fun id depth known => second.kept id depth (first.kept id depth known)
      right := fun id depth known => (second.right id depth known).before first }

/-- Depths that were found one by one are those of a function. -/
theorem exists_depths {operands : List TypeId} {depths : List Nat} (found : List.Forall₂ table.Nests operands depths) :
    ∃ depth : TypeId → Nat, depths = operands.map depth ∧
      ∀ operand ∈ operands, table.Nests operand (depth operand) := by
  have each (operand : TypeId) : ∃ depth, ∀ other, table.Nests operand other → other = depth := by
    by_cases nests : ∃ depth, table.Nests operand depth
    · obtain ⟨depth, nests⟩ := nests
      exact ⟨depth, fun other again => again.unique nests⟩
    · exact ⟨0, fun other again => absurd ⟨other, again⟩ nests⟩
  choose depth right using each
  refine ⟨depth, ?_⟩
  induction found with
  | nil => simp
  | @cons operand known operands depths first rest ih =>
      obtain ⟨same, others⟩ := ih
      obtain rfl := right operand known first
      exact ⟨by rw [List.map_cons, same], List.forall_mem_cons.mpr ⟨first, others⟩⟩

theorem notedDepth?_modifyCell (id other : TypeId) (change : Cell → Cell) :
    (table.modifyCell id change).notedDepth? other =
      if other = id then ((table.cell? id).map change).bind Cell.depth else table.notedDepth? other := by
  unfold notedDepth?
  rw [cell?_modifyCell]
  split <;> rfl

/-- A depth that follows from the others may be noted. -/
theorem Notes.note {depth : Nat} (notes : table.Notes larger) (unknown : table.notedDepth? id = none)
    (nests : table.Nests id depth) :
    table.Notes (larger.modifyCell id fun cell => { cell with depth := some depth }) where
  types other := by
    rw [← notes.types other]
    unfold get?
    rw [cell?_modifyCell]
    split
    · rename_i same
      subst same
      simp [Function.comp_def]
    · rfl
  kept other known noted := by
    rw [notedDepth?_modifyCell, if_neg]
    · exact notes.kept other known noted
    · rintro rfl
      cases unknown.symm.trans noted
  right other known noted := by
    rw [notedDepth?_modifyCell] at noted
    split at noted
    · rename_i same
      subst same
      cases atCell : larger.cell? other with
      | none => simp [atCell] at noted
      | some cell =>
          obtain rfl : depth = known := by simpa [atCell] using noted
          exact nests
    · exact notes.right other known noted

end Depths

section Interning

theorem Appends.keepsNotes (appends : table.Appends larger) : table.KeepsNotes larger where
  extends_ := appends.extends_
  depths id depth known := by
    unfold notedDepth? at known ⊢
    obtain ⟨cell, atCell, noted⟩ := Option.bind_eq_some_iff.mp known
    rw [appends.cell? atCell]
    exact noted

/-- The first cell of a type stays the first one. -/
theorem Extends.find? {type : TypeDef} (extends_ : table.Extends larger) (found : table.find? type = some id) :
    larger.find? type = some id := by
  obtain ⟨index, atIndex, rfl⟩ := Option.map_eq_some_iff.mp found
  obtain ⟨bound, isType, first⟩ := Array.findIdx?_eq_some_iff_getElem.mp atIndex
  have sameType (place : Nat) (inside : place < table.cells.size) :
      ∃ within : place < larger.cells.size, larger.cells[place].type = table.cells[place].type := by
    have atCell := table.cell?_nth place
    rw [Array.getElem?_eq_getElem inside] at atCell
    obtain ⟨other, atOther, same, -⟩ := extends_ _ _ atCell
    rw [larger.cell?_nth place] at atOther
    obtain ⟨within, isOther⟩ := Array.getElem?_eq_some_iff.mp atOther
    exact ⟨within, by rw [isOther, same]⟩
  obtain ⟨within, same⟩ := sameType index bound
  refine Option.map_eq_some_iff.mpr ⟨index, Array.findIdx?_eq_some_iff_getElem.mpr ⟨within, ?_, ?_⟩, rfl⟩
  · rw [same]
    exact isType
  · intro place before
    obtain ⟨_, same⟩ := sameType place (by omega)
    rw [same]
    exact first place before

theorem find?_add {type : TypeDef} (missing : table.find? type = none) :
    (table.add type).2.find? type = some table.nextId := by
  have absent := Option.map_eq_none_iff.mp missing
  unfold TypeTable.find? TypeTable.add
  rw [Array.findIdx?_push, absent]
  simp [nextId, size]

end Interning

end TypeTable

namespace TableM

open TypeTable

variable {table final : TypeTable} {id : TypeId}

section Nesting

/-- The depth of a type over operands of the given depths. -/
def note (id : TypeId) (operands : List TypeId) (depths : List Nat) : TableM Nat := do
  let result := if operands.isEmpty then 0 else depths.foldl max 0 + 1
  modify (·.modifyCell id fun cell => { cell with depth := some result })
  return result

theorem nestingWithin_noted {depth known : Nat} (noted : table.notedDepth? id = some known) :
    nestingWithin (depth + 1) id table = .ok known table := by
  unfold nestingWithin
  unfold notedDepth? at noted
  rw [get_bind_run, noted]
  rfl

theorem nestingWithin_missing {depth : Nat} (missing : table.get? id = none) :
    nestingWithin (depth + 1) id table = .error (.unknownId id) table := by
  have atCell : table.cell? id = none := Option.map_eq_none_iff.mp missing
  unfold nestingWithin
  rw [get_bind_run, atCell]
  dsimp only [Option.bind_none]
  rw [bind_run]
  simp [fetch, TypeTable.get, missing, Attempt.ofExcept]

theorem nestingWithin_new {depth : Nat} {type : TypeDef} (unknown : table.notedDepth? id = none)
    (found : table.get? id = some type) :
    nestingWithin (depth + 1) id table =
      (type.operands.mapM (nestingWithin depth) >>= note id type.operands) table := by
  unfold notedDepth? at unknown
  unfold nestingWithin
  rw [get_bind_run, unknown]
  dsimp only
  rw [bind_run_of_ok (fetch_eq_ok.mpr ⟨found, rfl⟩)]
  rfl

/-- A nesting depth that was found follows from the noted ones, and it is noted itself. -/
theorem nestingWithin_nests (depth : Nat) (id : TypeId) :
    (nestingWithin depth id).Preserves Notes ∧ ∀ {table final result}, nestingWithin depth id table = .ok result final →
      table.Nests id result ∧ final.notedDepth? id = some result := by
  induction depth generalizing id with
  | zero => exact ⟨leads_throw _, fun run => by cases run⟩
  | succ depth ih =>
      -- The operands come first, and the depth that follows from theirs is noted.
      have works {table middle : TypeTable} {type : TypeDef} {depths : List Nat} (unknown : table.notedDepth? id = none)
          (found : table.get? id = some type)
          (run : type.operands.mapM (nestingWithin depth) table = .ok depths middle) :
          table.Notes middle ∧ table.Nests id (if type.operands.isEmpty then 0 else depths.foldl max 0 + 1) := by
        have each := mapM_tells_behind (fun _ operand depth => table.Nests operand depth)
          (fun operand => (ih operand).1)
          (fun operand middle later depth notes run => ((ih operand).2 run).1.before notes)
          (fun _ _ _ _ nests _ => nests) run
        obtain ⟨depth, rfl, operands⟩ := exists_depths each
        exact ⟨(leads_mapM fun operand _ => (ih operand).1).of_ok run, .node unknown found operands⟩
      constructor
      · refine preserves_iff.mpr fun table => ?_
        cases noted : table.notedDepth? id with
        | some known =>
            rw [finish_of_ok (nestingWithin_noted noted)]
            exact refl_of Notes table
        | none =>
            cases found : table.get? id with
            | none =>
                rw [finish_of_error (nestingWithin_missing found)]
                exact refl_of Notes table
            | some type =>
                unfold finish
                rw [nestingWithin_new noted found]
                change table.Notes (finish (type.operands.mapM (nestingWithin depth) >>= note id type.operands) table)
                refine finish_bind (fun _ middle run => ?_) fun depths middle run => ?_
                · exact (leads_mapM fun operand _ => (ih operand).1).of_error run
                · obtain ⟨notes, nests⟩ := works noted found run
                  exact notes.note noted nests
      · intro table final result run
        cases noted : table.notedDepth? id with
        | some known =>
            obtain ⟨rfl, rfl⟩ := EStateM.Result.ok.inj ((nestingWithin_noted noted).symm.trans run)
            exact ⟨.noted noted, noted⟩
        | none =>
            cases found : table.get? id with
            | none => cases (nestingWithin_missing found).symm.trans run
            | some type =>
                rw [nestingWithin_new noted found] at run
                obtain ⟨depths, middle, operands, noting⟩ := bind_eq_ok.mp run
                obtain ⟨notes, nests⟩ := works noted found operands
                obtain ⟨rfl, rfl⟩ := EStateM.Result.ok.inj noting
                refine ⟨nests, ?_⟩
                obtain ⟨cell, atCell, -⟩ := Option.map_eq_some_iff.mp ((notes.types id).trans found)
                rw [notedDepth?_modifyCell, if_pos rfl, atCell]
                rfl

/-- No type is wanting for a depth that follows from the noted ones. -/
theorem nestingWithin_wants_nothing {depth known : Nat} {missing : TypeId} (nests : table.Nests id known) :
    nestingWithin depth id table ≠ .error (.unknownId missing) final := by
  intro run
  induction depth generalizing id table known final with
  | zero => cases run
  | succ depth ih =>
      cases nests with
      | noted noted => cases (nestingWithin_noted noted).symm.trans run
      | node unknown found operands =>
          rw [nestingWithin_new unknown found] at run
          rcases bind_eq_error.mp run with failed | ⟨_, _, _, noting⟩
          · obtain ⟨operand, member, middle, notes, failed⟩ :=
              mapM_eq_error (fun operand _ => (nestingWithin_nests depth operand).1) failed
            exact ih ((operands operand member).after notes) failed
          · cases noting

theorem nestingWithin_keepsNotes (depth : Nat) (id : TypeId) : (nestingWithin depth id).Preserves KeepsNotes :=
  preserves_iff.mpr fun table =>
    ⟨(nestingWithin_extends depth id).finish table, ((nestingWithin_nests depth id).1.finish table).kept⟩

theorem nestingWithin_reruns {depth more : Nat} (deeper : depth ≤ more) (id : TypeId) :
    Reruns KeepsNotes (fun _ => True) (fun _ => True) (nestingWithin depth id) (nestingWithin more id) := by
  induction depth generalizing more id with
  | zero => exact reruns_throw (by simp) _
  | succ depth ih =>
      obtain ⟨more, rfl⟩ : ∃ less, more = less + 1 := ⟨more - 1, by omega⟩
      have less : depth ≤ more := by omega
      constructor
      case preserves => exact nestingWithin_keepsNotes _ id
      case answers =>
        intro table final later result _ run keeps
        exact nestingWithin_noted (keeps.depths id result ((nestingWithin_nests _ id).2 run).2)
      case fails =>
        intro table final missing _ run _
        have notes := (nestingWithin_nests _ id).1.of_error run
        cases noted : final.notedDepth? id with
        | some known => exact absurd run (nestingWithin_wants_nothing (notes.right id known noted))
        | none =>
            have unknown := notes.unnoted noted
            cases found : table.get? id with
            | none =>
                obtain ⟨same, rfl⟩ := EStateM.Result.error.inj ((nestingWithin_missing found).symm.trans run)
                rw [nestingWithin_missing found, same]
            | some type =>
                rw [nestingWithin_new unknown found] at run
                rw [nestingWithin_new noted ((notes.types id).trans found)]
                rcases bind_eq_error.mp run with failed | ⟨_, _, _, noting⟩
                · have operands := reruns_mapM fun operand (_ : operand ∈ type.operands) => ih less operand
                  rw [bind_run, operands.fails trivial failed trivial]
                · cases noting

end Nesting

section Asking

/-- A computation on the table that comes to the same when it is run again. -/
abbrev Returns {Result : Type} (action again : TableM Result) : Prop :=
  Reruns KeepsNotes (fun _ => True) (fun _ => True) action again

theorem returns_ask {Result : Type} {question : TypeTable → Except Fault Result} (stable : IsStable question) :
    Returns (do Attempt.ofExcept (question (← get))) (do Attempt.ofExcept (question (← get))) :=
  reruns_ask fun table larger answer keeps => stable table larger answer keeps.extends_

theorem returns_fetch (id : TypeId) : Returns (fetch id) (fetch id) := returns_ask (stable_get id)

/-- A depth that grows with the table does not stand in the way. -/
theorem returns_sized {Result : Type} {action : Nat → TableM Result}
    (each : ∀ depth more, depth ≤ more → Returns (action depth) (action more)) :
    Returns (do action ((← get).size + 1)) (do action ((← get).size + 1)) where
  preserves := leads_get.bind fun table => (each _ _ (Nat.le_refl _)).preserves
  answers {table final later result} _ run keeps := by
    have preserves := (each _ _ (Nat.le_refl (table.size + 1))).preserves
    have grown := (trans_of KeepsNotes (preserves.of_ok run) keeps).extends_.size_le
    exact (each (table.size + 1) (later.size + 1) (by omega)).answers trivial run keeps
  fails {table final missing} _ run _ := by
    have preserves := (each _ _ (Nat.le_refl (table.size + 1))).preserves
    have grown := (preserves.of_error run).extends_.size_le
    exact (each (table.size + 1) (final.size + 1) (by omega)).fails trivial run trivial

theorem intern_returns {type : TypeDef} (structural : type.isStructural) : Returns (intern type) (intern type) where
  preserves := (intern_appends structural).mono (fun _ _ => Appends.keepsNotes) fun _ _ => Appends.keepsNotes
  answers {table final later result} _ run keeps := by
    have found : final.find? type = some result := by
      unfold intern at run
      rw [get_bind_run] at run
      cases known : table.find? type with
      | some id =>
          rw [known] at run
          obtain ⟨rfl, rfl⟩ := EStateM.Result.ok.inj run
          exact known
      | none =>
          rw [known] at run
          obtain ⟨rfl, rfl⟩ := EStateM.Result.ok.inj run
          exact find?_add known
    unfold intern
    rw [get_bind_run, keeps.extends_.find? found]
    rfl
  fails {table final missing} _ run _ := by
    unfold intern at run
    rw [get_bind_run] at run
    cases known : table.find? type <;> (rw [known] at run; cases run)

theorem instantiate_returns (head : TypeId) (args : List TypeId) :
    Returns (instantiate head args) (instantiate head args) := by
  refine (returns_fetch head).bind fun type => ?_
  have named (next : String → TableM TypeId) (each : ∀ name, Returns (next name) (next name)) :
      Returns (do next (← Attempt.ofExcept ((← get).ownName head)))
        (do next (← Attempt.ofExcept ((← get).ownName head))) := by
    rw [← bind_assoc]
    exact (returns_ask (stable_ownName head)).bind each
  refine named _ fun name => ?_
  split
  · exact reruns_throw (by simp) _
  · split
    · exact reruns_throw (by simp) _
    · exact intern_returns rfl

theorem substituteWithin_returns (mapping : Substitution) {depth more : Nat} (deeper : depth ≤ more) (id : TypeId) :
    Returns (substituteWithin mapping depth id) (substituteWithin mapping more id) := by
  induction depth generalizing more id with
  | zero => exact reruns_throw (by simp) _
  | succ depth ih =>
      obtain ⟨more, rfl⟩ : ∃ less, more = less + 1 := ⟨more - 1, by omega⟩
      have less : depth ≤ more := by omega
      unfold substituteWithin
      refine (returns_fetch id).bind fun type => ?_
      cases type with
      | array length element => exact (ih less element).bind fun _ => intern_returns rfl
      | tuple elements => exact (reruns_mapM fun element _ => ih less element).bind fun _ => intern_returns rfl
      | wrap wrapper inner => exact (ih less inner).bind fun _ => intern_returns rfl
      | applied head args => exact (reruns_mapM fun arg _ => ih less arg).bind fun _ => instantiate_returns head _
      | _ => exact reruns_pure _

theorem substitute_returns (mapping : Substitution) (id : TypeId) :
    Returns (substitute mapping id) (substitute mapping id) := by
  unfold substitute
  split
  · exact reruns_pure _
  · exact returns_sized fun _ _ deeper => substituteWithin_returns mapping deeper id

theorem substituteBody_returns (mapping : Substitution) (contents : Body) :
    Returns (substituteBody mapping contents) (substituteBody mapping contents) := by
  refine (reruns_mapM fun field _ => ?_).bind fun fields => ?_
  · exact (substitute_returns mapping field.type).bind fun _ => reruns_pure _
  · cases contents.base with
    | none => exact (reruns_pure _).bind fun _ => reruns_pure _
    | some id => exact ((substitute_returns mapping id).bind fun _ => reruns_pure _).bind fun _ => reruns_pure _

theorem body_keepsNotes (id : TypeId) : (body id).Preserves KeepsNotes := by
  have keeps : (body id).Preserves KeepsDepths := by
    refine body_preserves (fun type structural => ?_) (fun table id contents other depth known => ?_) id
    · exact (intern_appends structural).mono (fun _ _ appends => appends.keepsNotes.depths)
        fun _ _ appends => appends.keepsNotes.depths
    · rw [notedDepth?_modifyCell]
      split
      · rename_i same
        subst same
        unfold notedDepth? at known
        cases atCell : table.cell? other with
        | none => simp [atCell] at known
        | some cell => simpa [atCell] using known
      · exact known
  exact preserves_iff.mpr fun table => ⟨(body_extends id).finish table, keeps.finish table⟩

/-- The body of an instance of which none was noted, which is noted then. -/
def workOut (id head : TypeId) (args : List TypeId) : TableM Body := do
  match ← fetch head with
  | .object object => do
      let result ← substituteBody (object.params.zip args) object.body
      modify (·.modifyCell id fun cell => { cell with body := some result })
      return result
  | _ => return {}

theorem body_unnoted {head : TypeId} {args : List TypeId} {cell : Cell}
    (found : table.get? id = some (.applied head args)) (atCell : table.cell? id = some cell)
    (unnoted : cell.body = none) : body id table = workOut id head args table := by
  unfold body
  rw [bind_run_of_ok (fetch_eq_ok.mpr ⟨found, rfl⟩)]
  simp only [get_bind_run, atCell, Option.bind_some, unnoted]
  rfl

/-- A body that could not be worked out has left nothing but types that were made for it. -/
theorem workOut_fails_again {head missing : TypeId} {args : List TypeId}
    (run : workOut id head args table = .error (.unknownId missing) final) :
    table.Appends final ∧ workOut id head args final = .error (.unknownId missing) final := by
  unfold workOut at run ⊢
  rcases bind_eq_error.mp run with failed | ⟨type, middle, fetched, run⟩
  · refine ⟨(fetch_preserves head).of_error failed, ?_⟩
    exact bind_eq_error.mpr (.inl ((returns_fetch head).fails trivial failed trivial))
  · obtain ⟨found, rfl⟩ := fetch_eq_ok.mp fetched
    cases type with
    | object object =>
        rcases bind_eq_error.mp run with failed | ⟨_, _, _, noting⟩
        · have appends := (substituteBody_appends _ _).of_error failed
          have again := (substituteBody_returns _ _).fails trivial failed trivial
          refine ⟨appends, ?_⟩
          rw [bind_run_of_ok (fetch_run_of_extends found appends.extends_)]
          exact bind_eq_error.mpr (.inl again)
        · cases noting
    | _ => cases run

theorem body_fails_again {missing : TypeId} (run : body id table = .error (.unknownId missing) final) :
    body id final = .error (.unknownId missing) final := by
  unfold body at run
  rcases bind_eq_error.mp run with failed | ⟨type, middle, fetched, rest⟩
  · exact bind_eq_error.mpr (.inl ((returns_fetch id).fails trivial failed trivial))
  · obtain ⟨found, rfl⟩ := fetch_eq_ok.mp fetched
    obtain ⟨cell, atCell, -⟩ := Option.map_eq_some_iff.mp found
    cases type with
    | applied head args =>
        cases unnoted : cell.body with
        | some known =>
            simp only [get_bind_run, atCell, Option.bind_some, unnoted] at rest
            cases rest
        | none =>
            have working := (body_unnoted found atCell unnoted).symm.trans run
            obtain ⟨appends, again⟩ := workOut_fails_again working
            rw [body_unnoted (appends.extends_.get? found) (appends.cell? atCell) unnoted]
            exact again
    | _ => cases rest

theorem body_returns (id : TypeId) : Returns (body id) (body id) where
  preserves := body_keepsNotes id
  answers _ run keeps := body_kept run keeps.extends_
  fails _ run _ := body_fails_again run

theorem constituents_returns (id : TypeId) : Returns (constituents id) (constituents id) := by
  unfold constituents
  refine (returns_fetch id).bind fun type => ?_
  cases type with
  | object object => exact (body_returns id).bind fun _ => reruns_pure _
  | applied head args => exact (body_returns id).bind fun _ => reruns_pure _
  | wrap wrapper inner => cases wrapper <;> exact reruns_pure _
  | _ => exact reruns_pure _

theorem nesting_returns (id : TypeId) : Returns (nesting id) (nesting id) :=
  returns_sized fun _ _ deeper => nestingWithin_reruns deeper id

end Asking
end TableM
end LifecycleHooks

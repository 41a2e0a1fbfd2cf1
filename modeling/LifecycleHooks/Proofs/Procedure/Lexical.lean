import LifecycleHooks.Proofs.Procedure.Binding
import LifecycleHooks.Proofs.Procedure.Places

/-!
# Lexical names

At each place in a body the names can be seen that the statements before it declare, in its own
block and in the blocks around that.  A body is lexical when every name that it assigns to or
returns has the binding that the name stands for where it is used.
-/

namespace LifecycleHooks

/-- The name that a statement introduces behind itself, with its binding. -/
def Stmt.introduced? : Stmt → Option (String × BindingId)
  | .declare _ name _ _ _ binding => binding.map fun id => (name, id)
  | _ => none

/-- The names that statements introduce behind themselves, the latest first. -/
def introducedBy (statements : List Stmt) : Names := (statements.filterMap Stmt.introduced?).reverse

/-- The names that the blocks around a place introduce before it, the latest first. -/
def namesAround (around : List Enclosing) : Names :=
  around.flatMap fun enclosing => introducedBy enclosing.before

/-- What a statement declares has a binding of the given kind. -/
def Stmt.DeclaresGiven (given : BindingId → Prop) : Stmt → Prop
  | .declare _ _ _ _ _ binding => ∃ id, binding = some id ∧ given id
  | _ => True

mutual

/-- Where some names can be seen, a statement assigns to them and returns them by their bindings.
What it declares has a binding of the given kind. -/
def Stmt.IsLexical (given : BindingId → Prop) (visible : Names) : Stmt → Prop
  | .block block => block.IsLexical given visible
  | .declare _ _ _ _ _ binding => ∃ id, binding = some id ∧ given id
  | .assign _ target _ => ReturnsVisible visible (some target)
  | .return _ value => ReturnsVisible visible value
  | .branch _ _ yes none => yes.IsLexical given visible
  | .branch _ _ yes (some no) => yes.IsLexical given visible ∧ no.IsLexical given visible
  | .loop _ _ body => body.IsLexical given visible
  | .expr .. | .break _ | .continue _ | .spawn .. => True

/-- Where some names can be seen, a block uses them and its own by their bindings. -/
def Block.IsLexical (given : BindingId → Prop) (visible : Names) : Block → Prop
  | .mk _ statements => AllLexical given visible statements

/-- Where some names can be seen, statements use them and those declared before by their bindings. -/
def AllLexical (given : BindingId → Prop) (visible : Names) : List Stmt → Prop
  | [] => True
  | statement :: rest =>
      statement.IsLexical given visible ∧ AllLexical given (statement.introduced?.toList ++ visible) rest

end

section Names

variable {given : BindingId → Prop}

theorem introducedBy_append (first second : List Stmt) :
    introducedBy (first ++ second) = introducedBy second ++ introducedBy first := by
  simp [introducedBy]

theorem introducedBy_single (statement : Stmt) : introducedBy [statement] = statement.introduced?.toList := by
  cases found : statement.introduced? <;> simp [introducedBy, found]

theorem namesAround_behind (own : Enclosing) (outer : List Enclosing) (statement : Stmt) :
    namesAround ({ own with before := own.before ++ [statement] } :: outer) =
      statement.introduced?.toList ++ namesAround (own :: outer) := by
  simp [namesAround, introducedBy_append, introducedBy_single]

theorem allLexical_append {visible : Names} {first second : List Stmt}
    (before : AllLexical given visible first) (behind : AllLexical given (introducedBy first ++ visible) second) :
    AllLexical given visible (first ++ second) := by
  induction first generalizing visible with
  | nil => exact behind
  | cons statement first ih =>
      refine ⟨before.1, ih before.2 ?_⟩
      have same : introducedBy (statement :: first) = introducedBy first ++ statement.introduced?.toList :=
        (introducedBy_append [statement] first).trans (by rw [introducedBy_single])
      rwa [same, List.append_assoc] at behind

theorem Stmt.IsLexical.declaresGiven {visible : Names} {statement : Stmt}
    (lexical : statement.IsLexical given visible) : statement.DeclaresGiven given := by
  cases statement with
  | declare => exact lexical
  | _ => trivial

/-- Behind statements whose names are bound those can be seen that the statements introduce. -/
theorem Binds.seen_eq {inLoop : Bool} {first after : BindingId} {visible seen : Names} {statements : List Stmt}
    (binds : Binds inLoop first visible (.sequence statements) after seen) :
    seen = introducedBy statements ++ visible := by
  induction statements generalizing first visible with
  | nil =>
      cases binds
      rfl
  | cons statement statements ih =>
      cases binds with
      | @cons _ _ _ _ _ between _ _ _ here behind =>
          have same : between = statement.introduced?.toList ++ visible := by
            cases here with
            | block inside => exact inside.seen_of_block
            | branch _ _ inside => exact inside.seen_of_block
            | branchElse _ _ ifYes ifNo => exact ifNo.seen_of_block.trans ifYes.seen_of_block
            | loop _ _ _ inside => exact inside.seen_of_block
            | _ => rfl
          rw [ih behind, same, ← introducedBy_single, ← List.append_assoc, ← introducedBy_append]
          rfl

end Names

section Numbering

variable {given : BindingId → Prop}

theorem Stmt.introduced?_number (statement : Stmt) (first : NodeId) :
    (statement.number first).1.introduced? = statement.introduced? := by
  cases statement with
  | branch note condition yes no => cases no <;> rfl
  | _ => rfl

mutual

/-- Numbering a statement changes no binding. -/
theorem Stmt.IsLexical.number {visible : Names} : {statement : Stmt} → statement.IsLexical given visible →
    (first : NodeId) → (statement.number first).1.IsLexical given visible
  | .block _, lexical, first => Block.IsLexical.number lexical first
  | .declare .., lexical, _ => lexical
  | .assign .., lexical, _ => returnsVisible_number _ lexical
  | .return .., lexical, _ => returnsVisible_number _ lexical
  | .branch _ _ _ none, lexical, _ => Block.IsLexical.number lexical _
  | .branch _ _ _ (some _), lexical, _ => ⟨Block.IsLexical.number lexical.1 _, Block.IsLexical.number lexical.2 _⟩
  | .loop .., lexical, _ => Block.IsLexical.number lexical _
  | .expr .., _, _ | .break _, _, _ | .continue _, _, _ | .spawn .., _, _ => trivial

/-- Numbering a block changes no binding. -/
theorem Block.IsLexical.number {visible : Names} : {block : Block} → block.IsLexical given visible →
    (first : NodeId) → (block.number first).1.IsLexical given visible
  | .mk _ _, lexical, first => allLexical_number lexical (first + 1)

/-- Numbering statements changes no binding. -/
theorem allLexical_number {visible : Names} : {statements : List Stmt} → AllLexical given visible statements →
    (first : NodeId) → AllLexical given visible (numberStmts statements first).1
  | [], _, _ => trivial
  | statement :: _, lexical, first => by
      refine ⟨lexical.1.number first, ?_⟩
      rw [statement.introduced?_number first]
      exact allLexical_number lexical.2 _

end

end Numbering

/-- All that is declared in blocks before a place has a binding of the given kind. -/
def DeclaredGiven (given : BindingId → Prop) (around : List Enclosing) : Prop :=
  ∀ enclosing ∈ around, ∀ statement ∈ enclosing.before, statement.DeclaresGiven given

/-- The statement in front of a place uses the names that can be seen there, but for those outside
of the body, by their bindings, and all that is declared before the place has a binding of the
given kind. -/
structure Place.IsLexical (given : BindingId → Prop) (outside : Names) (place : Place) : Prop where
  front : ∀ statement, place.spot = .front statement →
    statement.IsLexical given (namesAround place.around ++ outside)
  before : DeclaredGiven given place.around

section Places

variable {given : BindingId → Prop} {outside : Names}

theorem Stmt.DeclaresGiven.mono {weaker : BindingId → Prop} {statement : Stmt}
    (declares : statement.DeclaresGiven given) (still : ∀ id, given id → weaker id) :
    statement.DeclaresGiven weaker := by
  cases statement with
  | declare =>
      obtain ⟨id, bound, isGiven⟩ := declares
      exact ⟨id, bound, still id isGiven⟩
  | _ => trivial

theorem DeclaredGiven.mono {weaker : BindingId → Prop} {around : List Enclosing}
    (declared : DeclaredGiven given around) (still : ∀ id, given id → weaker id) : DeclaredGiven weaker around :=
  fun enclosing member statement inside => (declared enclosing member statement inside).mono still

theorem DeclaredGiven.enter {outer : List Enclosing} (declared : DeclaredGiven given outer) (role : BlockRole)
    (block : Block) : DeclaredGiven given (⟨role, block, []⟩ :: outer) :=
  List.forall_mem_cons.mpr ⟨by simp, declared⟩

theorem DeclaredGiven.behind {own : Enclosing} {outer : List Enclosing} {passed : List Stmt}
    (declared : DeclaredGiven given (own :: outer)) (more : ∀ statement ∈ passed, statement.DeclaresGiven given) :
    DeclaredGiven given ({ own with before := own.before ++ passed } :: outer) := by
  obtain ⟨here, around⟩ := List.forall_mem_cons.mp declared
  refine List.forall_mem_cons.mpr ⟨fun statement member => ?_, around⟩
  exact (List.mem_append.mp member).elim (here statement) (more statement)

/-- What is introduced before a place has a binding of the given kind. -/
theorem DeclaredGiven.of_mem {around : List Enclosing} {id : BindingId} (declared : DeclaredGiven given around)
    (member : id ∈ (namesAround around).map Prod.snd) : given id := by
  obtain ⟨⟨name, _⟩, inside, rfl⟩ := List.mem_map.mp member
  obtain ⟨enclosing, isAround, inside⟩ := List.mem_flatMap.mp inside
  obtain ⟨statement, before, introduces⟩ := List.mem_filterMap.mp (List.mem_reverse.mp inside)
  have isGiven := declared enclosing isAround statement before
  cases statement with
  | declare note other value type mutability binding =>
      obtain ⟨id, rfl, isGiven⟩ := isGiven
      obtain ⟨-, rfl⟩ := Prod.mk.inj (Option.some.inj introduces)
      exact isGiven
  | _ => cases introduces

theorem AllLexical.declaresGiven {visible : Names} {statements : List Stmt}
    (lexical : AllLexical given visible statements) : ∀ statement ∈ statements, statement.DeclaresGiven given := by
  induction statements generalizing visible with
  | nil => simp
  | cons statement statements ih =>
      exact List.forall_mem_cons.mpr ⟨lexical.1.declaresGiven, ih lexical.2⟩

mutual

/-- At every place inside a lexical statement names are used by their bindings. -/
theorem Stmt.IsLexical.places {around : List Enclosing} (declared : DeclaredGiven given around) :
    {statement : Stmt} → statement.IsLexical given (namesAround around ++ outside) →
      ∀ place ∈ statement.places around, place.IsLexical given outside
  | .block _, lexical => Block.IsLexical.places declared .nested lexical
  | .branch _ _ _ none, lexical => Block.IsLexical.places declared .yes lexical
  | .branch _ _ _ (some _), lexical => fun place member =>
      (List.mem_append.mp member).elim (Block.IsLexical.places declared .yes lexical.1 place)
        (Block.IsLexical.places declared .no lexical.2 place)
  | .loop .., lexical => Block.IsLexical.places declared .round lexical
  | .declare .., _ | .assign .., _ | .expr .., _ | .return .., _ | .break _, _ | .continue _, _
  | .spawn .., _ => by simp [Stmt.places]

/-- At every place of a lexical block names are used by their bindings. -/
theorem Block.IsLexical.places {outer : List Enclosing} (declared : DeclaredGiven given outer) (role : BlockRole) :
    {block : Block} → block.IsLexical given (namesAround outer ++ outside) →
      ∀ place ∈ block.places outer role, place.IsLexical given outside
  | .mk note statements, lexical => by
      intro place member
      have enters := declared.enter role (.mk note statements)
      simp only [Block.places, List.mem_cons, List.mem_append, List.not_mem_nil, or_false] at member
      rcases member with rfl | inside | rfl
      · exact ⟨nofun, enters⟩
      · exact AllLexical.places enters lexical place inside
      · exact ⟨nofun, enters.behind lexical.declaresGiven⟩

/-- At every place in front of and inside lexical statements names are used by their bindings. -/
theorem AllLexical.places {own : Enclosing} {outer : List Enclosing} (declared : DeclaredGiven given (own :: outer)) :
    {statements : List Stmt} → AllLexical given (namesAround (own :: outer) ++ outside) statements →
      ∀ place ∈ placesIn own outer statements, place.IsLexical given outside
  | [], _ => by simp [placesIn]
  | statement :: statements, ⟨here, behind⟩ => by
      intro place member
      simp only [placesIn, List.mem_cons, List.mem_append] at member
      rcases member with rfl | inside | later
      · refine ⟨fun front isFront => ?_, declared⟩
        obtain rfl := Spot.front.inj isFront
        exact here
      · exact here.places declared place inside
      · refine AllLexical.places (declared.behind ?_) ?_ place later
        · exact List.forall_mem_singleton.mpr here.declaresGiven
        · rwa [namesAround_behind, List.append_assoc]

end

end Places
end LifecycleHooks

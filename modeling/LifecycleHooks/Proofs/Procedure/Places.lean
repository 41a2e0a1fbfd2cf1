import LifecycleHooks.Scope.Graph

/-!
# Places in a body

Control enters a block, stands in front of each of its statements and comes to its end.
Each of these is a place, known by the blocks around it and by what stands before it in
them.  A place can be reached unless something before it, in its own block or in one around
it, never lets control pass.
-/

namespace LifecycleHooks

/-- What a block is to what it stands in. -/
inductive BlockRole where
  | body
  | nested
  | yes
  | no
  | round
deriving DecidableEq, Repr

/-- Whether a block is the body of a loop. -/
def BlockRole.isLoopBody (role : BlockRole) : Bool := role = .round

/-- A block around a place, with those of its statements that stand before the place. -/
structure Enclosing where
  role : BlockRole
  block : Block
  before : List Stmt

/-- Where in a block control is. -/
inductive Spot where
  | opening
  | front (statement : Stmt)
  | closing

/-- A place in a body: the block it stands in, and the blocks around that from the inside out. -/
structure Place where
  own : Enclosing
  outer : List Enclosing
  spot : Spot

/-- All blocks around a place, its own first. -/
def Place.around (place : Place) : List Enclosing := place.own :: place.outer

/-- The places at which control enters blocks that stand in each other. -/
def entriesOf : List Enclosing → List Place
  | [] => []
  | own :: outer => ⟨{ own with before := [] }, outer, .opening⟩ :: entriesOf outer

mutual

/-- The places inside a statement that stands in the given blocks. -/
def Stmt.places (around : List Enclosing) : Stmt → List Place
  | .block block => block.places around .nested
  | .branch _ _ yes none => yes.places around .yes
  | .branch _ _ yes (some no) => yes.places around .yes ++ no.places around .no
  | .loop _ _ body => body.places around .round
  | .declare .. | .assign .. | .expr .. | .return .. | .break _ | .continue _ | .spawn .. => []

/-- The places of a block that stands in the given blocks, in the order written. -/
def Block.places (outer : List Enclosing) (role : BlockRole) : Block → List Place
  | .mk note statements =>
      ⟨⟨role, .mk note statements, []⟩, outer, .opening⟩ ::
        (placesIn ⟨role, .mk note statements, []⟩ outer statements ++
          [⟨⟨role, .mk note statements, statements⟩, outer, .closing⟩])

/-- The places in front of and inside the statements that are left of a block. -/
def placesIn (own : Enclosing) (outer : List Enclosing) : List Stmt → List Place
  | [] => []
  | statement :: rest =>
      ⟨own, outer, .front statement⟩ :: (statement.places (own :: outer) ++
        placesIn { own with before := own.before ++ [statement] } outer rest)

end

mutual

/-- Whether control can come to the end of a statement.  A loop may end at once, and so may a
branch with one way only. -/
def Stmt.completes : Stmt → Bool
  | .return .. | .break _ | .continue _ => false
  | .block block => block.completes
  | .branch _ _ yes (some no) => yes.completes || no.completes
  | .branch _ _ _ none | .loop .. => true
  | .declare .. | .assign .. | .expr .. | .spawn .. => true

/-- Whether control can come to the end of a block. -/
def Block.completes : Block → Bool
  | .mk _ statements => allComplete statements

/-- Whether control can come to the end of each of the statements. -/
def allComplete : List Stmt → Bool
  | [] => true
  | statement :: rest => statement.completes && allComplete rest

end

/-- Whether control can pass all that stands before a place. -/
def allPass (around : List Enclosing) : Bool := around.all fun enclosing => allComplete enclosing.before

/-- Whether control can come to a place. -/
def Place.isReachable (place : Place) : Bool := allPass place.around

/-- A way out of blocks: a statement that leaves, with the value it gives, or the end of a block. -/
structure Exit where
  kind : ExitKind
  note : Note
  value : Option Expr := none
  around : List Enclosing

namespace Place

/-- The way out of blocks that a place is. -/
def way? (place : Place) : Option Exit :=
  match place.spot with
  | .closing => some { kind := .fallthrough, note := place.own.block.note, around := place.around }
  | .front (.return note value) => some { kind := .return, note := note, value := value, around := place.around }
  | .front (.break note) => some { kind := .break, note := note, around := place.around }
  | .front (.continue note) => some { kind := .continue, note := note, around := place.around }
  | _ => none

/-- The way out of blocks that a place is, if control can come there. -/
def exit? (place : Place) : Option Exit := if place.isReachable then place.way? else none

/-- Whether control enters a block at a place. -/
def isEntered (place : Place) : Bool :=
  match place.spot with
  | .opening => place.isReachable
  | .front _ | .closing => false

/-- The end of the block that a place stands in. -/
def closing (place : Place) : Place :=
  { place with own := { place.own with before := place.own.block.statements }, spot := .closing }

end Place

namespace Exit

/-- Whether an exit leaves a loop, though there is none around it. -/
def isStray (exit : Exit) : Bool :=
  (exit.kind = .break || exit.kind = .continue) && !exit.around.any fun enclosing => enclosing.role.isLoopBody

/-- How many blocks an exit leaves: all of them, those up to the innermost loop body, or just the
one that ends. -/
def depth (exit : Exit) : Nat :=
  match exit.kind with
  | .return => exit.around.length
  | .break | .continue => (exit.around.findIdx fun enclosing => enclosing.role.isLoopBody) + 1
  | .fallthrough => 1

end Exit

/-- Entries of blocks with the numbers of their scopes, given one after the other. -/
def numberFrom (first : ScopeId) : List Place → List (Place × ScopeId)
  | [] => []
  | place :: rest => (place, first) :: numberFrom (first + 1) rest

namespace Procedure

/-- The places of a procedure, in the order written. -/
def places (procedure : Procedure) : List Place := procedure.body.places [] .body

/-- The entries of the blocks of a procedure that control can enter. -/
def blocks (procedure : Procedure) : List Place := procedure.places.filter Place.isEntered

/-- The blocks that control can enter, each with the number of its scope: scopes are numbered in
the order in which the entries are written. -/
def scopes (procedure : Procedure) : List (Place × ScopeId) := numberFrom 0 procedure.blocks

/-- The ways out of the blocks of a procedure that control can come to. -/
def exits (procedure : Procedure) : List Exit := procedure.places.filterMap Place.exit?

end Procedure

section Reachability

theorem allComplete_append (first second : List Stmt) :
    allComplete (first ++ second) = (allComplete first && allComplete second) := by
  induction first with
  | nil => simp [allComplete]
  | cons statement first ih => simp [allComplete, ih, Bool.and_assoc]

theorem allPass_cons (own : Enclosing) (outer : List Enclosing) :
    allPass (own :: outer) = (allComplete own.before && allPass outer) :=
  List.all_cons

mutual

/-- Nothing inside a statement can be reached when the statement cannot. -/
theorem Stmt.places_blocked {around : List Enclosing} (blocked : allPass around = false) :
    (statement : Stmt) → ∀ place ∈ statement.places around, place.isReachable = false
  | .block block => block.places_blocked .nested blocked
  | .branch _ _ yes none => yes.places_blocked .yes blocked
  | .branch _ _ yes (some no) => fun place member =>
      (List.mem_append.mp member).elim (yes.places_blocked .yes blocked place) (no.places_blocked .no blocked place)
  | .loop _ _ body => body.places_blocked .round blocked
  | .declare .. | .assign .. | .expr .. | .return .. | .break _ | .continue _ | .spawn .. => by simp [Stmt.places]

theorem Block.places_blocked {outer : List Enclosing} (role : BlockRole) (blocked : allPass outer = false) :
    (block : Block) → ∀ place ∈ block.places outer role, place.isReachable = false
  | .mk note statements => by
      intro place member
      simp only [Block.places, List.mem_cons, List.mem_append, List.not_mem_nil, or_false] at member
      rcases member with rfl | inside | rfl
      · simp [Place.isReachable, Place.around, allPass_cons, blocked]
      · exact placesIn_blocked (by simp [allPass_cons, blocked]) statements place inside
      · simp [Place.isReachable, Place.around, allPass_cons, blocked]

theorem placesIn_blocked {own : Enclosing} {outer : List Enclosing} (blocked : allPass (own :: outer) = false) :
    (statements : List Stmt) → ∀ place ∈ placesIn own outer statements, place.isReachable = false
  | [] => by simp [placesIn]
  | statement :: rest => by
      intro place member
      simp only [placesIn, List.mem_cons, List.mem_append] at member
      have behind : allPass ({ own with before := own.before ++ [statement] } :: outer) = false := by
        rw [allPass_cons] at blocked ⊢
        rw [allComplete_append, Bool.and_right_comm, blocked, Bool.false_and]
      rcases member with rfl | inside | later
      · exact blocked
      · exact statement.places_blocked blocked place inside
      · exact placesIn_blocked behind rest place later

end

theorem filterMap_exit?_blocked {places : List Place} (blocked : ∀ place ∈ places, place.isReachable = false) :
    places.filterMap Place.exit? = [] :=
  List.filterMap_eq_nil_iff.mpr fun place member => by simp [Place.exit?, blocked place member]

theorem filter_isEntered_blocked {places : List Place} (blocked : ∀ place ∈ places, place.isReachable = false) :
    places.filter Place.isEntered = [] :=
  List.filter_eq_nil_iff.mpr fun place member => by
    unfold Place.isEntered
    cases place.spot <;> simp [blocked place member]

end Reachability
end LifecycleHooks

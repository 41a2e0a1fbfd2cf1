import LifecycleHooks.Types.Basic
import Mathlib.Data.Set.Finite.Lattice
import Mathlib.Data.Set.Finite.List

/-!
# The spellings of types

A type is spelled by a tree of type constructors over the types that go by names of
their own.  Unlike the id of a type, its tree does not depend on when a table made the
type.  Over finitely many constructors there are only finitely many trees of a bounded
depth.
-/

namespace LifecycleHooks

/-- The outermost constructor of a type, or the id by which it goes. -/
inductive TypeLabel where
  | typevar (id : TypeId)
  | named (id : TypeId)
  | applied (head : TypeId)
  | array (length : Int)
  | tuple
  | wrap (wrapper : Wrapper)
deriving DecidableEq

/-- The spelling of a type. -/
inductive TypeTree where
  | node (label : TypeLabel) (operands : List TypeTree)

/-- The outermost constructor of a type that is known by an id. -/
def TypeDef.label (id : TypeId) : TypeDef → TypeLabel
  | .typevar _ => .typevar id
  | .scalar _ | .void | .unknown | .object _ | .distinct .. => .named id
  | .applied head _ => .applied head
  | .array length _ => .array length
  | .tuple _ => .tuple
  | .wrap wrapper _ => .wrap wrapper

/-- A type made from its parts is determined by its constructor and its operands. -/
theorem TypeDef.eq_of_label {id other : TypeId} {type second : TypeDef}
    (structural : type.isStructural = true) (sameLabel : second.label other = type.label id)
    (sameOperands : second.operands = type.operands) : second = type := by
  cases type <;> simp only [TypeDef.isStructural, Bool.false_eq_true] at structural <;>
    cases second <;> simp_all [TypeDef.label, TypeDef.operands]

/-- Constructors keep the types that go by names apart. -/
theorem TypeDef.eq_id_of_label {id other : TypeId} {type second : TypeDef}
    (named : type.isStructural = false) (sameLabel : second.label other = type.label id) :
    other = id := by
  cases type <;> simp only [TypeDef.isStructural, Bool.true_eq_false] at named <;>
    cases second <;> simp_all [TypeDef.label]

namespace TypeTree

/-- What holds of a tree when it holds of its operands holds of all trees. -/
theorem induction {motive : TypeTree → Prop}
    (node : ∀ label operands, (∀ operand ∈ operands, motive operand) →
      motive (.node label operands)) (tree : TypeTree) : motive tree :=
  @TypeTree.rec motive (fun operands => ∀ operand ∈ operands, motive operand)
    (fun label operands inside => node label operands inside) (by simp)
    (fun _ _ first rest => List.forall_mem_cons.mpr ⟨first, rest⟩) tree

/-- How deeply constructors nest in a type. -/
def depth : TypeTree → Nat
  | .node _ operands => (operands.map fun operand => operand.depth + 1).foldr max 0

theorem depth_le {label : TypeLabel} {operands : List TypeTree} {bound : Nat} :
    (node label operands).depth ≤ bound ↔ ∀ operand ∈ operands, operand.depth < bound := by
  rw [depth]
  induction operands with
  | nil => simp
  | cons operand operands ih =>
      simp only [List.map_cons, List.foldr_cons, max_le_iff, ih, List.forall_mem_cons,
        Nat.lt_iff_add_one_le]

/-- Replace type variables in a type. -/
def substitute (assign : TypeId → Option TypeTree) : TypeTree → TypeTree
  | .node (.typevar id) operands => (assign id).getD (.node (.typevar id) operands)
  | .node label operands => .node label (operands.map fun operand => operand.substitute assign)

theorem substitute_node {assign : TypeId → Option TypeTree} {label : TypeLabel}
    {operands : List TypeTree} (constant : ∀ id, label ≠ .typevar id) :
    (node label operands).substitute assign =
      .node label (operands.map fun operand => operand.substitute assign) := by
  rw [substitute]
  exact constant

/-- A type whose constructors all have one of the given shapes: a constructor and the
number of its operands. -/
inductive IsOver (shapes : Set (TypeLabel × Nat)) : TypeTree → Prop where
  | node {label : TypeLabel} {operands : List TypeTree} (known : (label, operands.length) ∈ shapes)
      (inside : ∀ operand ∈ operands, IsOver shapes operand) : IsOver shapes (.node label operands)

@[simp] theorem isOver_node {shapes : Set (TypeLabel × Nat)} {label : TypeLabel} {operands : List TypeTree} :
    (node label operands).IsOver shapes ↔
      (label, operands.length) ∈ shapes ∧ ∀ operand ∈ operands, operand.IsOver shapes :=
  ⟨fun isOver => by cases isOver with | node known inside => exact ⟨known, inside⟩, fun both => .node both.1 both.2⟩

theorem IsOver.mono {shapes larger : Set (TypeLabel × Nat)} (wider : shapes ⊆ larger) {tree : TypeTree}
    (isOver : tree.IsOver shapes) : tree.IsOver larger := by
  induction isOver with
  | node known _ ih => exact .node (wider known) ih

section Replacing

/-- A spelling in which what is assigned stands for some type variables, though not
necessarily wherever they occur. -/
inductive PartlyReplaced (assign : TypeId → Option TypeTree) : TypeTree → TypeTree → Prop where
  | replaced {id : TypeId} {operands : List TypeTree} {tree : TypeTree} (assigned : assign id = some tree) :
      PartlyReplaced assign (.node (.typevar id) operands) tree
  | node {label : TypeLabel} {operands others : List TypeTree}
      (inside : List.Forall₂ (PartlyReplaced assign) operands others) :
      PartlyReplaced assign (.node label operands) (.node label others)

variable {assign : TypeId → Option TypeTree} {tree other : TypeTree}

theorem exists_of_mem_forall₂ {First Second : Type} {relation : First → Second → Prop} {items : List First}
    {others : List Second} (related : List.Forall₂ relation items others) :
    ∀ other ∈ others, ∃ item ∈ items, relation item other := by
  induction related with
  | nil => simp
  | cons first _ ih =>
      refine List.forall_mem_cons.mpr ⟨⟨_, List.mem_cons_self, first⟩, fun other member => ?_⟩
      obtain ⟨item, inside, related⟩ := ih other member
      exact ⟨item, List.mem_cons_of_mem _ inside, related⟩

theorem PartlyReplaced.refl (tree : TypeTree) : PartlyReplaced assign tree tree := by
  induction tree using induction with
  | node label operands ih => exact .node (List.forall₂_same.mpr ih)

theorem PartlyReplaced.depth_le {bound : Nat} (bounded : ∀ id tree, assign id = some tree → tree.depth ≤ bound)
    (replaced : PartlyReplaced assign tree other) : other.depth ≤ tree.depth + bound := by
  induction tree using induction generalizing other with
  | node label operands ih =>
      cases replaced with
      | replaced assigned =>
          have := bounded _ _ assigned
          omega
      | node inside =>
          rw [TypeTree.depth_le]
          intro operand member
          obtain ⟨original, isOriginal, replaced⟩ := exists_of_mem_forall₂ inside operand member
          have shallow := ih original isOriginal replaced
          have below := TypeTree.depth_le.mp (le_refl (TypeTree.node label operands).depth) original isOriginal
          omega

theorem PartlyReplaced.isOver {shapes : Set (TypeLabel × Nat)}
    (known : ∀ id tree, assign id = some tree → tree.IsOver shapes) (replaced : PartlyReplaced assign tree other)
    (isOver : tree.IsOver shapes) : other.IsOver shapes := by
  induction isOver generalizing other with
  | node isKnown _ ih =>
      cases replaced with
      | replaced assigned => exact known _ _ assigned
      | node inside =>
          refine .node (inside.length_eq ▸ isKnown) fun operand member => ?_
          obtain ⟨original, isOriginal, replaced⟩ := exists_of_mem_forall₂ inside operand member
          exact ih original isOriginal replaced

/-- Two substitutions whose assignments differ by replaced variables give types that differ
by them. -/
theorem partlyReplaced_substitute {first second : TypeId → Option TypeTree}
    (related : ∀ id, Option.Rel (PartlyReplaced assign) (first id) (second id)) (tree : TypeTree) :
    PartlyReplaced assign (tree.substitute first) (tree.substitute second) := by
  induction tree using induction with
  | node label operands ih =>
      by_cases isVariable : ∃ id, label = .typevar id
      · obtain ⟨id, rfl⟩ := isVariable
        rw [substitute, substitute]
        generalize isFirst : first id = one
        generalize isSecond : second id = two
        have replaced := related id
        rw [isFirst, isSecond] at replaced
        cases replaced with
        | some replaced => exact replaced
        | none => exact PartlyReplaced.refl _
      · rw [substitute_node (by simpa using isVariable), substitute_node (by simpa using isVariable)]
        refine .node ?_
        rw [List.forall₂_map_left_iff, List.forall₂_map_right_iff]
        exact List.forall₂_same.mpr ih

theorem substitute_partlyReplaced (assign : TypeId → Option TypeTree) (tree : TypeTree) :
    PartlyReplaced assign tree (tree.substitute assign) := by
  induction tree using induction with
  | node label operands ih =>
      by_cases isVariable : ∃ id, label = .typevar id
      · obtain ⟨id, rfl⟩ := isVariable
        rw [substitute]
        cases assigned : assign id with
        | none => exact PartlyReplaced.refl _
        | some tree => exact .replaced assigned
      · rw [substitute_node (by simpa using isVariable)]
        refine .node ?_
        rw [List.forall₂_map_right_iff]
        exact List.forall₂_same.mpr ih

theorem depth_substitute_le {bound : Nat} (bounded : ∀ id tree, assign id = some tree → tree.depth ≤ bound)
    (tree : TypeTree) : (tree.substitute assign).depth ≤ tree.depth + bound :=
  (substitute_partlyReplaced assign tree).depth_le bounded

end Replacing

/-- The lists of a given length over a finite set are finitely many. -/
theorem finite_lists {trees : Set TypeTree} (finite : trees.Finite) (length : Nat) :
    {operands : List TypeTree | operands.length = length ∧ ∀ operand ∈ operands, operand ∈ trees}.Finite := by
  have : Finite trees := finite
  refine ((List.finite_length_eq trees length).image (List.map Subtype.val)).subset ?_
  rintro operands ⟨sameLength, inside⟩
  exact ⟨operands.attachWith _ inside, by simpa using sameLength, by simp⟩

/-- Over finitely many shapes there are finitely many types of a bounded depth. -/
theorem finite_isOver {shapes : Set (TypeLabel × Nat)} (finite : shapes.Finite) (bound : Nat) :
    {tree : TypeTree | tree.IsOver shapes ∧ tree.depth ≤ bound}.Finite := by
  have step (trees : Set TypeTree) (finiteTrees : trees.Finite) :
      {tree : TypeTree | ∃ label operands, tree = .node label operands ∧
        (label, operands.length) ∈ shapes ∧ ∀ operand ∈ operands, operand ∈ trees}.Finite := by
    refine (finite.biUnion fun shape _ =>
      (finite_lists finiteTrees shape.2).image (node shape.1)).subset ?_
    rintro tree ⟨label, operands, rfl, known, inside⟩
    exact Set.mem_biUnion known ⟨operands, ⟨rfl, inside⟩, rfl⟩
  induction bound with
  | zero =>
      refine (step ∅ Set.finite_empty).subset ?_
      rintro tree ⟨⟨known, inside⟩, shallow⟩
      exact ⟨_, _, rfl, known, fun operand member => absurd (depth_le.mp shallow operand member) (by simp)⟩
  | succ bound ih =>
      refine (step _ ih).subset ?_
      rintro tree ⟨⟨known, inside⟩, shallow⟩
      refine ⟨_, _, rfl, known, fun operand member => ⟨inside operand member, ?_⟩⟩
      have := depth_le.mp shallow operand member
      omega

end TypeTree
end LifecycleHooks

import LifecycleHooks.Proofs.Types.Extension
import LifecycleHooks.Proofs.Types.Tree
import Mathlib.Order.Interval.Set.Defs
import Mathlib.Order.Interval.Finset.Basic
import Mathlib.Data.Int.Interval
import Mathlib.Data.Set.Card

/-!
# Well-formed type tables

In a well-formed table every type is made from earlier types, every instance has as many
arguments as its generic object has parameters, equal structural types have one id, and
what is remembered about a type is right.  Then a type is known by its spelling alone, and
its constituents are a function of that spelling.
-/

namespace LifecycleHooks

/-- The arguments of an instance in place of the type parameters. -/
def assignment (params : List TypeId) (args : List TypeTree) (id : TypeId) : Option TypeTree :=
  (params.zip args).lookup id

namespace TypeTable

/-- An id that was handed out. -/
def Has (table : TypeTable) (id : TypeId) : Prop := (table.get? id).isSome = true

/-- The spelling of a type whose operands nest less than `depth` deep. -/
def treeWithin (table : TypeTable) : (depth : Nat) → TypeId → TypeTree
  | 0, id => .node (.named id) []
  | depth + 1, id =>
      match table.get? id with
      | none => .node (.named id) []
      | some type => .node (type.label id) (type.operands.map (table.treeWithin depth))

/-- The spelling of a type. -/
def tree (table : TypeTable) (id : TypeId) : TypeTree := table.treeWithin id.toNat id

/-- The type of an id that goes by a name of its own. -/
def declared? (table : TypeTable) (id : TypeId) : Option TypeDef :=
  (table.get? id).filter fun type => !type.isStructural

/-- The spellings of the constituents of a type. -/
def constituentTrees (table : TypeTable) : TypeTree → List TypeTree
  | .node (.named id) _ =>
      match table.declared? id with
      | some (.object object) => object.body.slots.map fun slot => table.tree slot.type
      | some (.distinct _ underlying _) => [table.tree underlying]
      | _ => []
  | .node (.applied head) args =>
      match table.declared? head with
      | some (.object object) => object.body.slots.map fun slot =>
          (table.tree slot.type).substitute (assignment object.params args)
      | _ => []
  | .node (.typevar _) _ => []
  | .node _ operands => operands

/-- A table such as its own operations make it. -/
structure WellFormed (table : TypeTable) : Prop where
  earlier : ∀ (id : Int) type, table.get? id = some type →
    ∀ part ∈ type.parts, table.Has part ∧ part < id
  applied : ∀ id head args, table.get? id = some (.applied head args) →
    ∃ object, table.get? head = some (.object object) ∧ object.params ≠ [] ∧
      args.length = object.params.length
  bodies : ∀ id object, table.get? id = some (.object object) →
    ∀ slot ∈ object.body.slots, table.Has slot.type
  unique : ∀ id other type, type.isStructural = true → table.get? id = some type →
    table.get? other = some type → id = other
  depths : ∀ id cell depth, table.cell? id = some cell → cell.depth = some depth →
    depth = (table.tree id).depth
  kept : ∀ id cell body, table.cell? id = some cell → cell.body = some body →
    (body.slots.map fun slot => table.tree slot.type) = table.constituentTrees (table.tree id) ∧
      ∀ slot ∈ body.slots, table.Has slot.type

/-- The constructors in use, each with the number of its operands. -/
def shapes (table : TypeTable) : Set (TypeLabel × Nat) :=
  {shape | ∃ id type, table.get? id = some type ∧ shape = (type.label id, type.operands.length)}

/-- A table that has further types of the shapes in use. -/
structure Unfolds (table larger : TypeTable) : Prop where
  extends_ : table.Extends larger
  shapes : larger.shapes ⊆ table.shapes

instance : IsPreorder TypeTable Unfolds where
  refl table := ⟨Extends.refl table, fun _ known => known⟩
  trans _ _ _ first second :=
    ⟨first.extends_.trans second.extends_, second.shapes.trans first.shapes⟩

theorem Unfolds.refl (table : TypeTable) : table.Unfolds table := refl_of Unfolds table

theorem Unfolds.trans {first second third : TypeTable} (earlier : first.Unfolds second)
    (later : second.Unfolds third) : first.Unfolds third :=
  trans_of Unfolds earlier later

section Ids

variable {table larger : TypeTable} {id : TypeId} {type : TypeDef}

theorem has_of_get? (found : table.get? id = some type) : table.Has id := by
  simp [Has, found]

theorem Has.exists (has : table.Has id) : ∃ type, table.get? id = some type :=
  Option.isSome_iff_exists.mp has

theorem Has.extends_ (has : table.Has id) (extends_ : table.Extends larger) : larger.Has id := by
  obtain ⟨type, found⟩ := has.exists
  exact has_of_get? (extends_.get? found)

theorem range_of_get? {id : Int} (found : table.get? id = some type) :
    1 ≤ id ∧ id ≤ table.size := by
  unfold get? cell? at found
  by_cases positive : 1 ≤ id
  · rw [if_pos positive] at found
    obtain ⟨cell, atIndex, _⟩ := Option.map_eq_some_iff.mp found
    obtain ⟨bound, _⟩ := Array.getElem?_eq_some_iff.mp atIndex
    have : (id - 1).toNat < table.size := bound
    omega
  · rw [if_neg positive] at found
    cases found

theorem Has.mem_ids {id : Int} (has : table.Has id) : id ∈ table.ids := by
  obtain ⟨type, found⟩ := has.exists
  obtain ⟨above, below⟩ := range_of_get? found
  have same : ((id - 1).toNat : Int) + 1 = id := by omega
  exact List.mem_map.mpr ⟨(id - 1).toNat, List.mem_range.mpr (by omega), same⟩

theorem Has.toNat_pos {id : Int} (has : table.Has id) : 0 < id.toNat := by
  obtain ⟨type, found⟩ := has.exists
  have := (range_of_get? found).1
  omega

theorem Has.toNat_le {id : Int} (has : table.Has id) : id.toNat ≤ table.size + 1 := by
  obtain ⟨type, found⟩ := has.exists
  have := (range_of_get? found).2
  omega

/-- The shape of the type with a number, and that of the empty tuple where there is none. -/
def shapeAt (table : TypeTable) (id : TypeId) : TypeLabel × Nat :=
  ((table.get? id).map fun type => (type.label id, type.operands.length)).getD (.tuple, 0)

theorem finite_shapes (table : TypeTable) : table.shapes.Finite := by
  refine ((Set.finite_Icc (1 : Int) table.size).image table.shapeAt).subset ?_
  rintro shape ⟨id, type, found, rfl⟩
  exact ⟨id, range_of_get? found, by simp [shapeAt, found]⟩

theorem operands_subset_parts (type : TypeDef) : type.operands ⊆ type.parts := by
  cases type <;> simp [TypeDef.operands, TypeDef.parts]

end Ids

section Trees

variable {table larger : TypeTable} {id : TypeId} {type : TypeDef}

theorem WellFormed.operand (wellFormed : table.WellFormed) {id : Int}
    (found : table.get? id = some type) {operand : Int} (member : operand ∈ type.operands) :
    table.Has operand ∧ operand < id :=
  wellFormed.earlier id type found operand (operands_subset_parts type member)

theorem treeWithin_enough (wellFormed : table.WellFormed) {depth other : Nat} {id : Int}
    (deep : id.toNat ≤ depth) (otherDeep : id.toNat ≤ other) :
    table.treeWithin depth id = table.treeWithin other id := by
  induction depth generalizing other id with
  | zero =>
      have unknown : table.get? id = none := by
        rw [Option.eq_none_iff_forall_ne_some]
        intro type found
        have := range_of_get? found
        omega
      cases other <;> simp [treeWithin, unknown]
  | succ depth ih =>
      cases other with
      | zero =>
          have unknown : table.get? id = none := by
            rw [Option.eq_none_iff_forall_ne_some]
            intro type found
            have := range_of_get? found
            omega
          simp [treeWithin, unknown]
      | succ other =>
          unfold treeWithin
          cases found : table.get? id with
          | none => rfl
          | some type =>
              refine congrArg (TypeTree.node _) (List.map_congr_left fun operand member => ?_)
              have below := (wellFormed.operand found member).2
              exact ih (by omega) (by omega)

/-- The spelling of a type consists of its constructor and the spellings of its operands. -/
theorem WellFormed.tree_eq (wellFormed : table.WellFormed) {id : Int}
    (found : table.get? id = some type) :
    table.tree id = .node (type.label id) (type.operands.map table.tree) := by
  obtain ⟨positive, _⟩ := range_of_get? found
  obtain ⟨depth, enough⟩ : ∃ depth, id.toNat = depth + 1 := ⟨id.toNat - 1, by omega⟩
  unfold tree
  rw [enough, treeWithin, found]
  refine congrArg (TypeTree.node _) (List.map_congr_left fun operand member => ?_)
  have below := (wellFormed.operand found member).2
  exact treeWithin_enough wellFormed (by omega) (le_refl _)

theorem WellFormed.treeWithin_extends (wellFormed : table.WellFormed)
    (extends_ : table.Extends larger) {depth : Nat} (has : table.Has id) :
    larger.treeWithin depth id = table.treeWithin depth id := by
  induction depth generalizing id with
  | zero => rfl
  | succ depth ih =>
      obtain ⟨type, found⟩ := has.exists
      rw [treeWithin, treeWithin, found, extends_.get? found]
      refine congrArg (TypeTree.node _) (List.map_congr_left fun operand member => ?_)
      exact ih (wellFormed.operand found member).1

/-- Further types leave the spelling of a type alone. -/
theorem WellFormed.tree_extends (wellFormed : table.WellFormed) (extends_ : table.Extends larger)
    (has : table.Has id) : larger.tree id = table.tree id :=
  wellFormed.treeWithin_extends extends_ has

theorem WellFormed.tree_isOver (wellFormed : table.WellFormed) {id : Int} (has : table.Has id) :
    (table.tree id).IsOver table.shapes := by
  induction bound : id.toNat using Nat.strong_induction_on generalizing id with
  | h bound ih =>
      obtain ⟨type, found⟩ := has.exists
      obtain ⟨positive, _⟩ := range_of_get? found
      rw [wellFormed.tree_eq found]
      refine .node ⟨id, type, found, by simp⟩ fun operand member => ?_
      obtain ⟨part, inside, rfl⟩ := List.mem_map.mp member
      obtain ⟨hasPart, below⟩ := wellFormed.operand found inside
      exact ih part.toNat (by omega) hasPart rfl

theorem eq_of_map_eq {First Second : Type} {function : First → Second} {items others : List First}
    (injective : ∀ item ∈ items, ∀ other ∈ others, function item = function other → item = other)
    (same : items.map function = others.map function) : items = others := by
  induction items generalizing others with
  | nil => simpa [eq_comm] using same
  | cons item items ih =>
      cases others with
      | nil => cases same
      | cons other others =>
          obtain ⟨first, rest⟩ := List.cons.inj same
          rw [injective item List.mem_cons_self other List.mem_cons_self first]
          rw [ih (fun item member other inside => injective item (List.mem_cons_of_mem _ member)
            other (List.mem_cons_of_mem _ inside)) rest]

/-- A type is known by its spelling. -/
theorem WellFormed.tree_injective (wellFormed : table.WellFormed) {id other : Int}
    (has : table.Has id) (hasOther : table.Has other) (same : table.tree id = table.tree other) :
    id = other := by
  induction bound : id.toNat using Nat.strong_induction_on generalizing id other with
  | h bound ih =>
      obtain ⟨type, found⟩ := has.exists
      obtain ⟨second, otherFound⟩ := hasOther.exists
      obtain ⟨positive, _⟩ := range_of_get? found
      rw [wellFormed.tree_eq found, wellFormed.tree_eq otherFound] at same
      obtain ⟨sameLabel, sameOperands⟩ := TypeTree.node.inj same
      cases structural : type.isStructural with
      | false => exact (TypeDef.eq_id_of_label structural sameLabel.symm).symm
      | true =>
          have operands : type.operands = second.operands := by
            refine eq_of_map_eq (fun part member part' member' samePart => ?_) sameOperands
            obtain ⟨hasPart, below⟩ := wellFormed.operand found member
            obtain ⟨hasPart', _⟩ := wellFormed.operand otherFound member'
            exact ih (Int.toNat part) (by omega) hasPart hasPart' samePart rfl
          have sameType := TypeDef.eq_of_label structural sameLabel.symm operands.symm
          exact wellFormed.unique id other type structural found (sameType ▸ otherFound)

theorem declared?_eq_some : table.declared? id = some type ↔
    table.get? id = some type ∧ type.isStructural = false := by
  simp [declared?, Option.filter_eq_some_iff]

/-- Further types of the shapes in use bring no new declarations. -/
theorem Unfolds.declared?_eq (unfolds : table.Unfolds larger) (id : TypeId) :
    larger.declared? id = table.declared? id := by
  apply Option.ext
  intro type
  rw [declared?_eq_some, declared?_eq_some]
  refine and_congr_left fun named => ⟨fun found => ?_, unfolds.extends_.get?⟩
  obtain ⟨other, old, known, same⟩ := unfolds.shapes ⟨id, type, found, rfl⟩
  obtain ⟨sameLabel, _⟩ := Prod.mk.inj same
  obtain rfl := TypeDef.eq_id_of_label named sameLabel.symm
  obtain rfl := Option.some.inj ((unfolds.extends_.get? known).symm.trans found)
  exact known

theorem Has.declared?_eq (has : table.Has id) (extends_ : table.Extends larger) :
    larger.declared? id = table.declared? id := by
  obtain ⟨type, found⟩ := has.exists
  simp [declared?, found, extends_.get? found]

/-- The constituents of a spelling depend on the one declaration that it goes back to. -/
theorem WellFormed.constituentTrees_eq (wellFormed : table.WellFormed)
    (extends_ : table.Extends larger) {label : TypeLabel} (operands : List TypeTree)
    (same : ∀ id, label = .named id ∨ label = .applied id →
      larger.declared? id = table.declared? id) :
    larger.constituentTrees (.node label operands) = table.constituentTrees (.node label operands) := by
  have slots {id : TypeId} {object : ObjectType} (found : table.declared? id = some (.object object)) :
      ∀ slot ∈ object.body.slots, larger.tree slot.type = table.tree slot.type :=
    fun slot member => wellFormed.tree_extends extends_
      (wellFormed.bodies id object (declared?_eq_some.mp found).1 slot member)
  cases label with
  | named id =>
      simp only [constituentTrees, same id (.inl rfl)]
      cases found : table.declared? id with
      | none => rfl
      | some type =>
          cases type with
          | object object => exact List.map_congr_left (slots found)
          | distinct name underlying span =>
              have has := (wellFormed.earlier id _ (declared?_eq_some.mp found).1 underlying
                (by simp [TypeDef.parts])).1
              simp only [wellFormed.tree_extends extends_ has]
          | _ => rfl
  | applied head =>
      simp only [constituentTrees, same head (.inr rfl)]
      cases found : table.declared? head with
      | none => rfl
      | some type =>
          cases type with
          | object object =>
              exact List.map_congr_left fun slot member => by rw [slots found slot member]
          | _ => rfl
  | _ => rfl

/-- Further types leave the constituents of every spelling alone. -/
theorem WellFormed.constituentTrees_unfolds (wellFormed : table.WellFormed)
    (unfolds : table.Unfolds larger) (tree : TypeTree) :
    larger.constituentTrees tree = table.constituentTrees tree := by
  obtain ⟨label, operands⟩ := tree
  exact wellFormed.constituentTrees_eq unfolds.extends_ operands fun id _ => unfolds.declared?_eq id

/-- The declaration that a spelling goes back to is known. -/
theorem WellFormed.has_of_label {other : TypeId} (wellFormed : table.WellFormed) (found : table.get? id = some type)
    (mentioned : type.label id = .named other ∨ type.label id = .applied other) : table.Has other := by
  cases type <;> simp only [TypeDef.label, reduceCtorEq, TypeLabel.named.injEq,
    TypeLabel.applied.injEq, or_false, false_or] at mentioned
  case applied head args =>
    subst other
    exact (wellFormed.earlier id _ found head (by simp [TypeDef.parts])).1
  all_goals
    subst other
    exact has_of_get? found

/-- Further types leave the constituents of a spelling over the shapes in use alone. -/
theorem WellFormed.constituentTrees_isOver (wellFormed : table.WellFormed) (extends_ : table.Extends larger)
    {tree : TypeTree} (isOver : tree.IsOver table.shapes) :
    larger.constituentTrees tree = table.constituentTrees tree := by
  cases isOver with
  | @node label operands known _ =>
      refine wellFormed.constituentTrees_eq extends_ operands fun other mentioned => ?_
      obtain ⟨id, type, found, same⟩ := known
      obtain ⟨rfl, _⟩ := Prod.mk.inj same
      exact (wellFormed.has_of_label found mentioned).declared?_eq extends_

theorem WellFormed.constituentTrees_extends (wellFormed : table.WellFormed)
    (extends_ : table.Extends larger) (has : table.Has id) :
    larger.constituentTrees (larger.tree id) = table.constituentTrees (table.tree id) := by
  rw [wellFormed.tree_extends extends_ has]
  exact wellFormed.constituentTrees_isOver extends_ (wellFormed.tree_isOver has)

end Trees
section Counting

/-- An existing type whose spelling lies in a set. -/
def Within (table : TypeTable) (trees : Set TypeTree) (id : TypeId) : Prop :=
  table.Has id ∧ table.tree id ∈ trees

variable {table larger : TypeTable} {trees : Set TypeTree} {id : TypeId}

theorem WellFormed.within_extends (wellFormed : table.WellFormed) (extends_ : table.Extends larger)
    (within : table.Within trees id) : larger.Within trees id :=
  ⟨within.1.extends_ extends_, wellFormed.tree_extends extends_ within.1 ▸ within.2⟩

theorem length_le_ncard {Item : Type} {items : List Item} {set : Set Item} (finite : set.Finite)
    (distinct : items.Nodup) (inside : ∀ item ∈ items, item ∈ set) : items.length ≤ set.ncard := by
  classical
  rw [← List.toFinset_card_of_nodup distinct, ← Set.ncard_coe_finset]
  exact Set.ncard_le_ncard (fun item member => inside item (List.mem_toFinset.mp member)) finite

/-- Distinct types have distinct spellings, so no more of them lie in a set than it has elements. -/
theorem WellFormed.length_le_ncard (wellFormed : table.WellFormed) (finite : trees.Finite)
    {ids : List TypeId} (distinct : ids.Nodup) (within : ∀ id ∈ ids, table.Within trees id) :
    ids.length ≤ trees.ncard := by
  have distinctTrees : (ids.map table.tree).Nodup :=
    distinct.map_on fun first member second inside same =>
      wellFormed.tree_injective (within first member).1 (within second inside).1 same
  rw [← List.length_map table.tree]
  apply TypeTable.length_le_ncard finite distinctTrees
  intro tree member
  obtain ⟨id, inside, rfl⟩ := List.mem_map.mp member
  exact (within id inside).2

/-- A type nests less deeply than there are types before it. -/
theorem WellFormed.depth_tree_le (wellFormed : table.WellFormed) {id : Int} (has : table.Has id) :
    (table.tree id).depth ≤ id.toNat := by
  induction bound : id.toNat using Nat.strong_induction_on generalizing id with
  | h bound ih =>
      obtain ⟨type, found⟩ := has.exists
      have positive := (range_of_get? found).1
      rw [wellFormed.tree_eq found, TypeTree.depth_le]
      intro operand member
      obtain ⟨part, inside, rfl⟩ := List.mem_map.mp member
      obtain ⟨hasPart, below⟩ := wellFormed.operand found inside
      have := ih (Int.toNat part) (by omega) hasPart rfl
      omega

theorem WellFormed.depth_tree_le_size (wellFormed : table.WellFormed) {id : TypeId}
    (has : table.Has id) : (table.tree id).depth ≤ table.size := by
  obtain ⟨type, found⟩ := has.exists
  have inside := (range_of_get? found).2
  have shallow := wellFormed.depth_tree_le has
  omega

end Counting

end TypeTable
end LifecycleHooks

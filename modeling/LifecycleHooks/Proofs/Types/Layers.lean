import LifecycleHooks.Proofs.Types.WellFormed
import Mathlib.Logic.Relation

/-!
# What generic objects hold

A generic object holds the instances among its constituents, among theirs, and so on.  The
objects of a table are layered when none of them holds instances of others but of lower
layers.  What an instance is made from is what its generic object is made from, with the
arguments of the instance for some of the type parameters.
-/

namespace LifecycleHooks

open TypeTree

/-- The generic object that a type is an instance of. -/
def TypeTree.instance? : TypeTree → Option TypeId
  | .node (.applied head) _ => some head
  | _ => none

/-- The declared type that a spelling belongs to. -/
def TypeTree.head? : TypeTree → Option TypeId
  | .node (.named id) _ => some id
  | .node (.applied head) _ => some head
  | _ => none

/-- A spelling that belongs to none of some declared types. -/
def TypeTree.Avoids (barred : Set TypeId) (tree : TypeTree) : Prop :=
  ∀ head, tree.head? = some head → head ∉ barred

theorem TypeTree.Avoids.mono {barred fewer : Set TypeId} {tree : TypeTree} (inside : fewer ⊆ barred)
    (avoids : tree.Avoids barred) : tree.Avoids fewer :=
  fun head isHead isBarred => avoids head isHead (inside isBarred)

/-- Which declared type a spelling belongs to does not depend on its operands. -/
theorem TypeTree.Avoids.operands {barred : Set TypeId} {label : TypeLabel} {operands others : List TypeTree}
    (avoids : (TypeTree.node label operands).Avoids barred) : (TypeTree.node label others).Avoids barred := by
  intro head isHead
  cases label <;> exact avoids head isHead

namespace TypeTable

variable {table larger : TypeTable} {head other : TypeId} {tree : TypeTree}

/-- The objects that are declared. -/
def objects (table : TypeTable) : Set TypeId :=
  {id | ∃ object, table.declared? id = some (.object object)}

theorem finite_objects (table : TypeTable) : table.objects.Finite := by
  refine (Set.finite_Icc (1 : Int) table.size).subset ?_
  rintro id ⟨object, found⟩
  exact range_of_get? (declared?_eq_some.mp found).1

/-- The objects with type parameters. -/
def genericObjects (table : TypeTable) : Set TypeId :=
  {id | ∃ object, table.get? id = some (.object object) ∧ object.params ≠ []}

theorem Unfolds.objects_eq {larger : TypeTable} (unfolds : table.Unfolds larger) :
    larger.objects = table.objects := by
  unfold objects
  simp only [unfolds.declared?_eq]

theorem has_of_mem_genericObjects (generic : head ∈ table.genericObjects) : table.Has head := by
  obtain ⟨object, found, _⟩ := generic
  exact has_of_get? found

theorem mem_genericObjects_of_typeParams {type : TypeDef} (found : table.get? head = some type)
    (generic : type.typeParams.isEmpty = false) : head ∈ table.genericObjects := by
  cases type with
  | object object => exact ⟨object, found, by simpa [TypeDef.typeParams] using generic⟩
  | _ => cases generic

theorem genericObjects_extends (extends_ : table.Extends larger) (generic : head ∈ table.genericObjects) :
    head ∈ larger.genericObjects := by
  obtain ⟨object, found, params⟩ := generic
  exact ⟨object, extends_.get? found, params⟩

theorem head?_of_mem_genericObjects (generic : head ∈ table.genericObjects) : table.head? head = .ok (some head) := by
  obtain ⟨object, found, _⟩ := generic
  rw [TypeTable.head?, get_eq_ok.mpr found]
  rfl

/-- The declared type that a type belongs to belongs to itself. -/
theorem WellFormed.head?_head {id : TypeId} (wellFormed : table.WellFormed) (has : table.Has id)
    (isHead : (table.tree id).head? = some head) : table.head? head = table.head? id := by
  obtain ⟨type, found⟩ := has.exists
  rw [wellFormed.tree_eq found] at isHead
  cases type with
  | applied other args =>
      obtain rfl := Option.some.inj isHead
      obtain ⟨object, isObject, _⟩ := wellFormed.applied id _ _ found
      rw [TypeTable.head?, TypeTable.head?, get_eq_ok.mpr found, get_eq_ok.mpr isObject]
      rfl
  | typevar name => cases isHead
  | array length element => cases isHead
  | tuple elements => cases isHead
  | wrap wrapper inner => cases isHead
  | _ => rw [Option.some.inj isHead]

/-- Which declared type a type belongs to is told by its spelling. -/
theorem WellFormed.head?_tree {id : TypeId} (wellFormed : table.WellFormed) (isHead : table.head? id = .ok (some head)) :
    (table.tree id).head? = some head := by
  rw [TypeTable.head?] at isHead
  cases fetched : table.get id with
  | error fault =>
      rw [fetched] at isHead
      cases isHead
  | ok type =>
      rw [fetched] at isHead
      rw [wellFormed.tree_eq (get_eq_ok.mp fetched)]
      cases type with
      | object object => exact Except.ok.inj isHead
      | distinct name underlying span => exact Except.ok.inj isHead
      | applied other args => exact Except.ok.inj isHead
      | _ => cases isHead

/-- The spellings of what a type is made from, of what that is made from, and so on. -/
def contents (table : TypeTable) (id : TypeId) : Set TypeTree :=
  {tree | Relation.ReflTransGen (fun owner part => part ∈ table.constituentTrees owner) (table.tree id) tree}

/-- What a spelling leads to through constituents.  Spellings of barred types are led to, but not
what they are made from. -/
def avoiding (table : TypeTable) (barred : Set TypeId) (start : TypeTree) : Set TypeTree :=
  {tree | Relation.ReflTransGen (fun owner part => owner.Avoids barred ∧ part ∈ table.constituentTrees owner) start tree}

/-- Among what an object is made from are instances of another one. -/
def Holds (table : TypeTable) (head other : TypeId) : Prop :=
  ∃ tree ∈ table.contents head, tree.instance? = some other

/-- Objects hold instances of themselves and of objects in lower layers only. -/
def Layered (table : TypeTable) (layer : TypeId → Nat) : Prop :=
  ∀ head ∈ table.objects, ∀ other, table.Holds head other → other = head ∨ layer other < layer head

section Replacing

variable {assign : TypeId → Option TypeTree}

theorem assignment_related {params : List TypeId} {args others : List TypeTree}
    (related : List.Forall₂ (PartlyReplaced assign) args others) (id : TypeId) :
    Option.Rel (PartlyReplaced assign) (assignment params args id) (assignment params others id) := by
  unfold assignment
  induction related generalizing params with
  | nil => simp
  | @cons arg other args others first _ ih =>
      cases params with
      | nil => simp
      | cons param params =>
          rw [List.zip_cons_cons, List.zip_cons_cons, List.lookup_cons, List.lookup_cons]
          cases id == param with
          | true => exact .some first
          | false => exact ih

/-- Replacing type variables in a type and then taking it apart is taking it apart first. -/
theorem constituents_partlyReplaced {label : TypeLabel} {operands others : List TypeTree}
    (inside : List.Forall₂ (PartlyReplaced assign) operands others) :
    ∀ part ∈ table.constituentTrees (.node label others),
      ∃ original ∈ table.constituentTrees (.node label operands), PartlyReplaced assign original part := by
  intro part member
  cases label with
  | typevar id => simp [constituentTrees] at member
  | named id => exact ⟨part, member, .refl part⟩
  | applied head =>
      simp only [constituentTrees] at member ⊢
      split at member
      · obtain ⟨slot, isSlot, rfl⟩ := List.mem_map.mp member
        exact ⟨_, List.mem_map_of_mem isSlot, partlyReplaced_substitute (assignment_related inside) _⟩
      · simp at member
  | _ => exact exists_of_mem_forall₂ inside part member

end Replacing

theorem WellFormed.instance?_tree {id : TypeId} {type : TypeDef} (wellFormed : table.WellFormed)
    (found : table.get? id = some type) :
    (table.tree id).instance? = some head ↔ ∃ args, type = .applied head args := by
  rw [wellFormed.tree_eq found]
  cases type <;> simp [TypeDef.label, TypeTree.instance?]

/-- Constituents are over the same shapes as the type if those of the declared types among the shapes
are. -/
theorem isOver_constituent_of_closed {shapes : Set (TypeLabel × Nat)}
    (closed : ∀ shape ∈ shapes, ∀ id, (TypeTree.node shape.1 []).head? = some id →
      ∀ part ∈ table.constituentTrees (.node (.named id) []), part.IsOver shapes)
    (isOver : tree.IsOver shapes) : ∀ part ∈ table.constituentTrees tree, part.IsOver shapes := by
  intro part member
  cases isOver with
  | @node label operands known inside =>
      cases label with
      | typevar id => simp [constituentTrees] at member
      | named id => exact closed _ known id rfl part member
      | applied head =>
          have ofHead := closed _ known head rfl
          simp only [constituentTrees] at member ofHead
          split at member
          · rename_i object found
            rw [found] at ofHead
            obtain ⟨slot, isSlot, rfl⟩ := List.mem_map.mp member
            refine (substitute_partlyReplaced _ _).isOver (fun id tree assigned => ?_)
              (ofHead _ (List.mem_map_of_mem isSlot))
            have isOperand : (id, tree) ∈ object.params.zip operands := mem_of_lookup assigned
            exact inside tree (List.of_mem_zip isOperand).2
          · simp at member
      | _ => exact inside part member

/-- The constituents of a type over the shapes in use are over them too. -/
theorem WellFormed.isOver_constituent (wellFormed : table.WellFormed) (isOver : tree.IsOver table.shapes) :
    ∀ part ∈ table.constituentTrees tree, part.IsOver table.shapes := by
  refine isOver_constituent_of_closed (fun _ _ id _ part member => ?_) isOver
  simp only [constituentTrees] at member
  split at member
  · rename_i object found
    obtain ⟨slot, isSlot, rfl⟩ := List.mem_map.mp member
    exact wellFormed.tree_isOver (wellFormed.bodies id object (declared?_eq_some.mp found).1 slot isSlot)
  · rename_i name underlying span found
    obtain rfl := List.mem_singleton.mp member
    exact wellFormed.tree_isOver
      (wellFormed.earlier id _ (declared?_eq_some.mp found).1 underlying (by simp [TypeDef.parts])).1
  · simp at member

section Ranking

variable {layer : TypeId → Nat}

/-- The shapes that a declared type may be made from when it may be made from itself and from those in
lower layers. -/
def below (layer : TypeId → Nat) (id : TypeId) : Set (TypeLabel × Nat) :=
  {shape | ∀ other, (TypeTree.node shape.1 []).head? = some other → other = id ∨ layer other < layer id}

/-- Declared types are spelled out by themselves and by those in lower layers. -/
def Ranked (table : TypeTable) (layer : TypeId → Nat) : Prop :=
  ∀ id, ∀ part ∈ table.constituentTrees (.node (.named id) []), part.IsOver (below layer id)

theorem below_subset {id other : TypeId} (inside : other = id ∨ layer other < layer id) :
    below layer other ⊆ below layer id := by
  intro shape isBelow third isThird
  obtain rfl | lower := inside
  · exact isBelow third isThird
  · refine .inr ((isBelow third isThird).elim (fun same => same ▸ lower) fun lowest => lowest.trans lower)

/-- A type is made from what is spelled out by declared types in its layers, if it is so itself. -/
theorem Ranked.isOver_contents {id : TypeId} (ranked : table.Ranked layer)
    (starts : (table.tree head).IsOver (below layer id)) (inside : tree ∈ table.contents head) :
    tree.IsOver (below layer id) := by
  induction inside with
  | refl => exact starts
  | tail _ step ih =>
      refine isOver_constituent_of_closed (fun shape known other isOther part isPart => ?_) ih _ step
      exact (ranked other part isPart).mono (below_subset (known other isOther))

/-- Objects are layered when declared types are. -/
theorem Ranked.layered (ranked : table.Ranked layer) (wellFormed : table.WellFormed) : table.Layered layer := by
  rintro head ⟨object, declared⟩ other ⟨tree, inside, isInstance⟩
  have spelled : table.tree head = .node (.named head) [] :=
    wellFormed.tree_eq (declared?_eq_some.mp declared).1
  have isOver : tree.IsOver (below layer head) := by
    refine ranked.isOver_contents ?_ inside
    rw [spelled]
    exact .node (fun other isOther => .inl (Option.some.inj isOther).symm) (by simp)
  cases isOver with
  | @node label operands known _ =>
      refine known other ?_
      cases label with
      | applied => exact isInstance
      | _ => cases isInstance

end Ranking

section Avoiding

variable {barred fewer : Set TypeId} {start : TypeTree}

theorem avoiding_mono (inside : fewer ⊆ barred) : table.avoiding barred start ⊆ table.avoiding fewer start :=
  fun _ => Relation.ReflTransGen.mono (fun _ _ step => ⟨step.1.mono inside, step.2⟩) _ _

theorem contents_eq_avoiding (table : TypeTable) (head : TypeId) :
    table.contents head = table.avoiding ∅ (table.tree head) := by
  unfold contents avoiding TypeTree.Avoids
  simp

theorem avoiding_subset_contents {id : TypeId} : table.avoiding barred (table.tree id) ⊆ table.contents id := by
  rw [contents_eq_avoiding]
  exact avoiding_mono (Set.empty_subset barred)

theorem Unfolds.avoiding_eq (wellFormed : table.WellFormed) (unfolds : table.Unfolds larger) :
    larger.avoiding barred start = table.avoiding barred start := by
  unfold avoiding
  simp only [wellFormed.constituentTrees_unfolds unfolds]

end Avoiding

section Extending

/-- Two relations that agree on what they lead to from a start lead to the same. -/
theorem leads_congr {first second : TypeTree → TypeTree → Prop} {inside : TypeTree → Prop} {start : TypeTree}
    (same : ∀ owner part, inside owner → (first owner part ↔ second owner part))
    (keeps : ∀ owner part, inside owner → first owner part → inside part) (starts : inside start) :
    Relation.ReflTransGen first start tree ↔ Relation.ReflTransGen second start tree := by
  constructor
  · intro path
    have both : Relation.ReflTransGen second start tree ∧ inside tree := by
      induction path with
      | refl => exact ⟨.refl, starts⟩
      | tail _ step ih => exact ⟨ih.1.tail ((same _ _ ih.2).mp step), keeps _ _ ih.2 step⟩
    exact both.1
  · intro path
    have both : Relation.ReflTransGen first start tree ∧ inside tree := by
      induction path with
      | refl => exact ⟨.refl, starts⟩
      | tail _ step ih =>
          have back := (same _ _ ih.2).mpr step
          exact ⟨ih.1.tail back, keeps _ _ ih.2 back⟩
    exact both.1

/-- Further types leave the contents of a known type alone. -/
theorem WellFormed.contents_extends (wellFormed : table.WellFormed) (extends_ : table.Extends larger)
    (has : table.Has head) : larger.contents head = table.contents head := by
  refine Set.ext fun tree => ?_
  unfold contents
  rw [wellFormed.tree_extends extends_ has]
  symm
  refine leads_congr (fun owner part isOver => ?_) (fun owner part isOver => wellFormed.isOver_constituent isOver part)
    (wellFormed.tree_isOver has)
  rw [wellFormed.constituentTrees_isOver extends_ isOver]

theorem has_of_mem_objects (isObject : head ∈ table.objects) : table.Has head := by
  obtain ⟨object, declared⟩ := isObject
  exact has_of_get? (declared?_eq_some.mp declared).1

theorem objects_extends (extends_ : table.Extends larger) : table.objects ⊆ larger.objects := by
  rintro head isObject
  have same := (has_of_mem_objects isObject).declared?_eq extends_
  obtain ⟨object, declared⟩ := isObject
  exact ⟨object, same.trans declared⟩

/-- Objects that are layered were so before there were further types. -/
theorem Layered.earlier {layer : TypeId → Nat} (layered : larger.Layered layer) (wellFormed : table.WellFormed)
    (extends_ : table.Extends larger) : table.Layered layer := by
  rintro head isObject other ⟨tree, inside, isInstance⟩
  rw [← wellFormed.contents_extends extends_ (has_of_mem_objects isObject)] at inside
  exact layered head (objects_extends extends_ isObject) other ⟨tree, inside, isInstance⟩

end Extending
end TypeTable
end LifecycleHooks

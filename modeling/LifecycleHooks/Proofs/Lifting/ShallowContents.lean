import LifecycleHooks.Proofs.Lifting.Reasons

/-!
# Contents without deep instances

An object is shallow when no instance among its contents nests too deeply.  What a shallow
object is made from is finite.  Where all generic objects are shallow, so is what any type is
made from: it is found among the known types and among what a generic object holds, with the
arguments of a known instance for some of the type parameters.
-/

namespace LifecycleHooks

open TypeTree

theorem not_tooDeep_of_instance?_eq_none {tree : TypeTree} (noInstance : tree.instance? = none) :
    ¬ TooDeep tree := by
  intro deep
  simpa [noInstance] using deep.1

namespace TypeTable

variable {table larger : TypeTable} {id head : TypeId} {tree : TypeTree}

/-- No instance that a type is made from nests too deeply. -/
def Shallow (table : TypeTable) (id : TypeId) : Prop :=
  ∀ tree ∈ table.contents id, ¬ TooDeep tree

/-- All generic objects are shallow. -/
def AllShallow (table : TypeTable) : Prop :=
  ∀ head ∈ table.genericObjects, table.Shallow head

/-- The contents of a known type are over the shapes in use. -/
theorem WellFormed.isOver_contents (wellFormed : table.WellFormed) (has : table.Has id)
    (inside : tree ∈ table.contents id) : tree.IsOver table.shapes := by
  induction inside with
  | refl => exact wellFormed.tree_isOver has
  | tail _ part isOver => exact wellFormed.isOver_constituent isOver _ part

section Bounding

/-- What a shallow object is made from nests to a bounded depth. -/
theorem WellFormed.depth_contents_le (wellFormed : table.WellFormed) (has : table.Has id)
    (shallow : table.Shallow id) (inside : tree ∈ table.contents id) :
    tree.depth ≤ table.size + nestingLimit := by
  induction inside with
  | refl =>
      have := wellFormed.depth_tree_le_size has
      omega
  | @tail owner part ahead isPart bounded =>
      obtain ⟨label, operands⟩ := owner
      refine wellFormed.depth_constituent_le bounded (fun head isApplied => ?_) part isPart
      have here : TypeTree.node label operands ∈ table.contents id := ahead
      subst isApplied
      simpa [TooDeep, TypeTree.instance?] using shallow _ here

/-- What a shallow object is made from is finite. -/
theorem WellFormed.finite_contents_of_shallow (wellFormed : table.WellFormed) (has : table.Has id)
    (shallow : table.Shallow id) : (table.contents id).Finite :=
  table.finite_shallowTrees.subset fun _ inside =>
    ⟨wellFormed.isOver_contents has inside, wellFormed.depth_contents_le has shallow inside⟩

end Bounding

section Descending

variable {barred : Set TypeId}

/-- A spelling of a known type, or of something that a generic object leads to, with the arguments
of a known instance for some of the type parameters. -/
inductive Descends (table : TypeTable) (barred : Set TypeId) : TypeTree → Prop where
  | known {id : TypeId} (has : table.Has id) : Descends table barred (table.tree id)
  | replaced {id head : TypeId} {args : List TypeId} {object : ObjectType} {original tree : TypeTree}
      (found : table.get? id = some (.applied head args)) (isHead : table.get? head = some (.object object))
      (free : head ∉ barred) (inside : original ∈ table.avoiding barred (table.tree head))
      (replaced : PartlyReplaced (assignment object.params (args.map table.tree)) original tree) :
      Descends table barred tree

/-- What an instance assigns to a type parameter is the spelling of one of its arguments. -/
theorem assigned_known {args : List TypeId} {object : ObjectType} {param : TypeId}
    (wellFormed : table.WellFormed) (found : table.get? id = some (.applied head args))
    (assigned : assignment object.params (args.map table.tree) param = some tree) :
    ∃ arg, table.Has arg ∧ table.tree arg = tree := by
  have isPair : (param, tree) ∈ object.params.zip (args.map table.tree) := mem_of_lookup assigned
  obtain ⟨arg, member, same⟩ := List.mem_map.mp (List.of_mem_zip isPair).2
  have isOperand : arg ∈ (TypeDef.applied head args).operands := member
  exact ⟨arg, (wellFormed.operand found isOperand).1, same⟩

/-- A constituent of a known type that is not barred descends from the known types. -/
theorem WellFormed.descends_of_has (wellFormed : table.WellFormed) (has : table.Has id)
    (avoids : (table.tree id).Avoids barred) :
    ∀ part ∈ table.constituentTrees (table.tree id), table.Descends barred part := by
  obtain ⟨type, found⟩ := has.exists
  intro part member
  have ofOperands (inside : part ∈ type.operands.map table.tree) : table.Descends barred part := by
    obtain ⟨operand, isOperand, rfl⟩ := List.mem_map.mp inside
    exact .known (wellFormed.operand found isOperand).1
  have ofName (label : type.label id = .named id) : table.Descends barred part := by
    rw [wellFormed.tree_eq found, label] at member
    simp only [constituentTrees] at member
    split at member
    · rename_i object declared
      obtain ⟨slot, isSlot, rfl⟩ := List.mem_map.mp member
      exact .known (wellFormed.bodies id object (declared?_eq_some.mp declared).1 slot isSlot)
    · rename_i name underlying span declared
      obtain rfl := List.mem_singleton.mp member
      exact .known (wellFormed.earlier id _ (declared?_eq_some.mp declared).1 underlying (by simp [TypeDef.parts])).1
    · cases member
  cases type with
  | applied head args =>
      obtain ⟨object, isHead, _⟩ := wellFormed.applied id head args found
      rw [wellFormed.tree_eq found] at member avoids
      simp only [TypeDef.label, constituentTrees, declared?_eq_some.mpr ⟨isHead, rfl⟩] at member
      obtain ⟨slot, isSlot, rfl⟩ := List.mem_map.mp member
      have free : head ∉ barred := avoids head rfl
      have held : table.tree slot.type ∈ table.avoiding barred (table.tree head) := by
        refine Relation.ReflTransGen.single ?_
        rw [wellFormed.tree_eq isHead]
        refine ⟨fun other isOther => Option.some.inj isOther ▸ free, ?_⟩
        simp only [TypeDef.label, constituentTrees, declared?_eq_some.mpr ⟨isHead, rfl⟩]
        exact List.mem_map_of_mem isSlot
      exact .replaced found isHead free held (substitute_partlyReplaced _ _)
  | typevar name =>
      rw [wellFormed.tree_eq found] at member
      cases member
  | array length element =>
      rw [wellFormed.tree_eq found] at member
      exact ofOperands member
  | tuple elements =>
      rw [wellFormed.tree_eq found] at member
      exact ofOperands member
  | wrap wrapper inner =>
      rw [wellFormed.tree_eq found] at member
      exact ofOperands member
  | _ => exact ofName rfl

/-- What descends from the known types leads to what does so too. -/
theorem Descends.part (wellFormed : table.WellFormed) (descends : table.Descends barred tree)
    (avoids : tree.Avoids barred) : ∀ part ∈ table.constituentTrees tree, table.Descends barred part := by
  cases descends with
  | known has => exact wellFormed.descends_of_has has avoids
  | @replaced id head args object original tree found isHead free inside replaced =>
      cases replaced with
      | replaced assigned =>
          obtain ⟨arg, has, rfl⟩ := assigned_known wellFormed found assigned
          exact wellFormed.descends_of_has has avoids
      | node operands =>
          intro part member
          obtain ⟨earlier, isPart, partReplaced⟩ := constituents_partlyReplaced operands part member
          exact .replaced found isHead free (inside.tail ⟨avoids.operands, isPart⟩) partReplaced

theorem Descends.of_mem_avoiding (wellFormed : table.WellFormed) (has : table.Has id)
    (inside : tree ∈ table.avoiding barred (table.tree id)) : table.Descends barred tree := by
  induction inside with
  | refl => exact .known has
  | tail _ step descends => exact descends.part wellFormed step.1 _ step.2

theorem finite_genericObjects (table : TypeTable) : table.genericObjects.Finite := by
  refine table.finite_objects.subset ?_
  rintro head ⟨object, found, _⟩
  exact ⟨object, declared?_eq_some.mpr ⟨found, rfl⟩⟩

/-- What descends from the known types nests to a bounded depth, if what the generic objects lead to
does. -/
theorem Descends.depth_le {bound : Nat} (wellFormed : table.WellFormed)
    (bounded : ∀ head ∈ table.genericObjects, head ∉ barred →
      ∀ tree ∈ table.avoiding barred (table.tree head), tree.depth ≤ bound)
    (descends : table.Descends barred tree) : tree.depth ≤ bound + table.size := by
  cases descends with
  | known has =>
      have := wellFormed.depth_tree_le_size has
      omega
  | @replaced id head args object original tree found isHead free inside replaced =>
      obtain ⟨other, isObject, generic, _⟩ := wellFormed.applied id head args found
      have below := bounded head ⟨other, isObject, generic⟩ free original inside
      have above := replaced.depth_le fun param tree assigned => by
        obtain ⟨arg, has, rfl⟩ := assigned_known wellFormed found assigned
        exact wellFormed.depth_tree_le_size has
      omega

/-- Where all generic objects that are not barred lead to finitely many types, so do all known
types. -/
theorem WellFormed.finite_avoiding (wellFormed : table.WellFormed)
    (heads : ∀ head ∈ table.genericObjects, head ∉ barred → (table.avoiding barred (table.tree head)).Finite)
    (has : table.Has id) : (table.avoiding barred (table.tree id)).Finite := by
  have finite : (⋃ head ∈ table.genericObjects \ barred, table.avoiding barred (table.tree head)).Finite :=
    table.finite_genericObjects.sdiff.biUnion fun head isFree => heads head isFree.1 isFree.2
  obtain ⟨bound, isBound⟩ := (finite.image TypeTree.depth).bddAbove
  have bounded (head : TypeId) (generic : head ∈ table.genericObjects) (free : head ∉ barred) (tree : TypeTree)
      (inside : tree ∈ table.avoiding barred (table.tree head)) : tree.depth ≤ bound :=
    isBound ⟨tree, Set.mem_biUnion ⟨generic, free⟩ inside, rfl⟩
  refine (finite_isOver table.finite_shapes (bound + table.size)).subset fun tree inside => ?_
  exact ⟨wellFormed.isOver_contents has (avoiding_subset_contents inside),
    (Descends.of_mem_avoiding wellFormed has inside).depth_le wellFormed bounded⟩

/-- Where all generic objects are shallow, what a known type is made from is finite. -/
theorem WellFormed.finite_contents (wellFormed : table.WellFormed) (allShallow : table.AllShallow)
    (has : table.Has id) : (table.contents id).Finite := by
  rw [contents_eq_avoiding]
  refine wellFormed.finite_avoiding (fun head generic _ => ?_) has
  rw [← contents_eq_avoiding]
  exact wellFormed.finite_contents_of_shallow (has_of_mem_genericObjects generic) (allShallow head generic)

end Descending

section Growing

/-- Further types leave a known type shallow. -/
theorem Shallow.extends_ (shallow : table.Shallow id) (wellFormed : table.WellFormed) (has : table.Has id)
    (extends_ : table.Extends larger) : larger.Shallow id := by
  unfold Shallow
  rw [wellFormed.contents_extends extends_ has]
  exact shallow

theorem genericObjects_unfolds (unfolds : table.Unfolds larger) : larger.genericObjects ⊆ table.genericObjects := by
  rintro head ⟨object, found, generic⟩
  have declared := unfolds.declared?_eq head
  rw [declared?_eq_some.mpr ⟨found, rfl⟩] at declared
  exact ⟨object, (declared?_eq_some.mp declared.symm).1, generic⟩

/-- Further types of the shapes in use leave all generic objects shallow. -/
theorem AllShallow.unfolds (allShallow : table.AllShallow) (wellFormed : table.WellFormed)
    (unfolds : table.Unfolds larger) : larger.AllShallow := by
  intro head generic
  have before := genericObjects_unfolds unfolds generic
  exact (allShallow head before).extends_ wellFormed (has_of_mem_genericObjects before) unfolds.extends_

/-- An object without a body is made from nothing else. -/
theorem WellFormed.shallow_of_bare {object : ObjectType} (wellFormed : table.WellFormed)
    (found : table.get? id = some (.object object)) (bare : object.body.slots = []) : table.Shallow id := by
  have noParts : table.constituentTrees (table.tree id) = [] := by
    rw [wellFormed.tree_eq found]
    simp only [TypeDef.label, constituentTrees, declared?_eq_some.mpr ⟨found, rfl⟩, bare, List.map_nil]
  intro tree inside
  rcases Relation.ReflTransGen.cases_head inside with same | ⟨part, isPart, _⟩
  · subst same
    refine not_tooDeep_of_instance?_eq_none ?_
    rw [wellFormed.tree_eq found]
    rfl
  · rw [noParts] at isPart
    cases isPart

/-- Where no further object has a body, all generic objects stay shallow. -/
theorem AllShallow.extends_ (allShallow : table.AllShallow) (wellFormed : table.WellFormed)
    (wellFormed' : larger.WellFormed) (extends_ : table.Extends larger)
    (bare : ∀ id object, larger.get? id = some (.object object) →
      table.get? id = some (.object object) ∨ object.body.slots = []) : larger.AllShallow := by
  rintro head ⟨object, found, generic⟩
  rcases bare head object found with before | isBare
  · exact (allShallow head ⟨object, before, generic⟩).extends_ wellFormed (has_of_get? before) extends_
  · exact wellFormed'.shallow_of_bare found isBare

end Growing

end TypeTable

namespace TableCall

open TypeTable TableM Attempt

variable {table : TypeTable}

/-- A type that is added is no object with a body that was not there before. -/
theorem bare_of_add {type : TypeDef} (notObject : ∀ object, type ≠ .object object) {id : TypeId} {object : ObjectType}
    (found : (table.add type).2.get? id = some (.object object)) : table.get? id = some (.object object) := by
  rw [get?_add] at found
  split at found
  · exact absurd (Option.some.inj found) (notObject object)
  · exact found

theorem objects_of_appends {larger : TypeTable} (appends : table.Appends larger) {id : TypeId} {object : ObjectType}
    (found : larger.get? id = some (.object object)) : table.get? id = some (.object object) := by
  obtain ⟨cell, atCell, isObject⟩ := Option.map_eq_some_iff.mp found
  cases before : table.cell? id with
  | none =>
      have structural := (appends.isNewCell atCell before).1
      rw [isObject] at structural
      cases structural
  | some old =>
      obtain rfl := Option.some.inj ((appends.cell? before).symm.trans atCell)
      rw [TypeTable.get?, before, Option.map_some, isObject]

theorem objects_of_unfolds {larger : TypeTable} (unfolds : table.Unfolds larger) {id : TypeId} {object : ObjectType}
    (found : larger.get? id = some (.object object)) : table.get? id = some (.object object) := by
  have declared := unfolds.declared?_eq id
  rw [declared?_eq_some.mpr ⟨found, rfl⟩] at declared
  exact (declared?_eq_some.mp declared.symm).1

theorem objects_of_builtIn {known : TypeTable → Option TypeId} {remember : TypeId → TypeTable → TypeTable}
    {type : TypeDef} {id : TypeId} {object : ObjectType}
    (found : ((builtIn known remember type).finish table).get? id = some (.object object))
    (notObject : ∀ object, type ≠ .object object)
    (sameCells : ∀ id table, (remember id table).cells = table.cells) : table.get? id = some (.object object) := by
  unfold builtIn finish at found
  rw [get_bind_run] at found
  cases isKnown : known table with
  | some id =>
      rw [isKnown] at found
      exact found
  | none =>
      rw [isKnown] at found
      have same (id : TypeId) (table : TypeTable) (other : TypeId) : (remember id table).get? other = table.get? other := by
        unfold TypeTable.get? cell?
        rw [sameCells]
      refine bare_of_add notObject ?_
      rw [← same table.nextId]
      exact found

/-- Unless it redefines an object, an operation gives no object a body. -/
theorem run_bare (call : TableCall) (grows : call.isDefinition = false) (regular : table.Regular) {id : TypeId}
    {object : ObjectType} (found : (call.run.finish table).get? id = some (.object object)) :
    table.get? id = some (.object object) ∨ object.body.slots = [] := by
  cases call <;> rw [run] at found
  case define other contents => cases grows
  all_goals rw [finish_bind_pure] at found
  case int => exact .inl (objects_of_builtIn found (by simp) fun _ _ => rfl)
  case bool => exact .inl (objects_of_builtIn found (by simp) fun _ _ => rfl)
  case void => exact .inl (objects_of_builtIn found (by simp) fun _ _ => rfl)
  case unknown => exact .inl (objects_of_builtIn found (by simp) fun _ _ => rfl)
  case scalar name => exact .inl (bare_of_add (by simp) found)
  case typevar name => exact .inl (bare_of_add (by simp) found)
  case distinct name underlying span => exact .inl (bare_of_add (by simp) found)
  case object name params span =>
    rw [finish_of_ok (declareObject_run table name params span)] at found
    obtain ⟨_, impossible⟩ | before := withTypevars_type found
    · cases impossible
    · rw [get?_add] at before
      split at before
      · obtain rfl := TypeDef.object.inj (Option.some.inj before)
        exact .inr rfl
      · exact .inl before
  case array length element => exact .inl (objects_of_appends ((intern_appends rfl).finish table) found)
  case tuple elements => exact .inl (objects_of_appends ((intern_appends rfl).finish table) found)
  case wrap wrapper inner => exact .inl (objects_of_appends ((intern_appends rfl).finish table) found)
  case instantiate head args => exact .inl (objects_of_appends ((instantiate_appends head args).finish table) found)
  case body other => exact .inl (objects_of_unfolds ((body_unrolls other).finish table regular).2 found)
  case constituents other => exact .inl (objects_of_unfolds ((constituents_unrolls other).finish table regular).2 found)
  case nesting other => exact .inl (objects_of_unfolds ((nesting_unrolls other).finish table regular).2 found)
  case fieldType fuel other name =>
    exact .inl (objects_of_unfolds
      ((fieldTypeFrom_preserves body_unrolls name fuel [] other).finish table regular).2 found)
  case substitute mapping other =>
    exact .inl (objects_of_appends ((substitute_appends mapping other).finish table) found)

end TableCall
end LifecycleHooks

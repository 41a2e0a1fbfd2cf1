import LifecycleHooks.Proofs.Types.Making

/-!
# Type variables in the spelling of a type

Substitution looks at the type variables that a spelling mentions and at nothing else.
When what is assigned mentions none, it leaves exactly the variables without an assignment.
The name of a distinct type stands for a type of its own, so no variable may hide behind it.
-/

namespace LifecycleHooks

namespace TypeTree

/-- A type variable occurs in the spelling of a type. -/
inductive Mentions (id : TypeId) : TypeTree → Prop where
  | here {operands : List TypeTree} : Mentions id (.node (.typevar id) operands)
  | inside {label : TypeLabel} {operands : List TypeTree} {operand : TypeTree}
      (constant : ∀ other, label ≠ .typevar other) (member : operand ∈ operands)
      (mentions : Mentions id operand) : Mentions id (.node label operands)

/-- No type variable occurs in the spelling of a type. -/
def IsClosed (tree : TypeTree) : Prop := ∀ id, ¬ tree.Mentions id

/-- What is read of a variable of a type: an outer parameter mode does not count. -/
def value : TypeTree → TypeTree
  | .node (.wrap wrapper) [inner] => if wrapper.isParamMode then inner else .node (.wrap wrapper) [inner]
  | tree => tree

variable {id other : TypeId} {label : TypeLabel} {operands : List TypeTree}
  {assign first second : TypeId → Option TypeTree} {tree : TypeTree}

@[simp]
theorem mentions_typevar : (node (.typevar other) operands).Mentions id ↔ id = other := by
  constructor
  · rintro (_ | ⟨constant, -, -⟩)
    · rfl
    · exact absurd rfl (constant other)
  · rintro rfl
    exact .here

theorem mentions_node (constant : ∀ other, label ≠ .typevar other) :
    (node label operands).Mentions id ↔ ∃ operand ∈ operands, operand.Mentions id := by
  constructor
  · rintro (_ | ⟨-, member, mentions⟩)
    · exact absurd rfl (constant id)
    · exact ⟨_, member, mentions⟩
  · rintro ⟨operand, member, mentions⟩
    exact .inside constant member mentions

/-- Substitution depends on the variables that are mentioned. -/
theorem substitute_congr (same : ∀ id, tree.Mentions id → first id = second id) :
    tree.substitute first = tree.substitute second := by
  induction tree using induction with
  | node label operands ih =>
      by_cases isVariable : ∃ id, label = .typevar id
      · obtain ⟨id, rfl⟩ := isVariable
        rw [substitute, substitute, same id .here]
      · have constant : ∀ id, label ≠ .typevar id := by simpa using isVariable
        rw [substitute_node constant, substitute_node constant]
        refine congrArg (node label) (List.map_congr_left fun operand member => ?_)
        exact ih operand member fun id mentions => same id (.inside constant member mentions)

/-- Substitution leaves a type alone none of whose variables is assigned anything. -/
theorem substitute_eq_self (unassigned : ∀ id, tree.Mentions id → assign id = none) :
    tree.substitute assign = tree := by
  induction tree using induction with
  | node label operands ih =>
      by_cases isVariable : ∃ id, label = .typevar id
      · obtain ⟨id, rfl⟩ := isVariable
        rw [substitute, unassigned id .here, Option.getD_none]
      · have constant : ∀ id, label ≠ .typevar id := by simpa using isVariable
        rw [substitute_node constant]
        refine congrArg (node label) ((List.map_congr_left fun operand member => ?_).trans (List.map_id operands))
        exact ih operand member fun id mentions => unassigned id (.inside constant member mentions)

/-- After substitution, the variables are those without an assignment and those of what is assigned. -/
theorem mentions_substitute_iff : (tree.substitute assign).Mentions id ↔
    ∃ other, tree.Mentions other ∧ (assign other).elim (id = other) fun replaced => replaced.Mentions id := by
  induction tree using induction with
  | node label operands ih =>
      by_cases isVariable : ∃ other, label = .typevar other
      · obtain ⟨other, rfl⟩ := isVariable
        rw [substitute]
        simp only [mentions_typevar, exists_eq_left]
        cases assign other <;> simp
      · have constant : ∀ id, label ≠ .typevar id := by simpa using isVariable
        rw [substitute_node constant, mentions_node constant]
        simp only [List.mem_map, exists_exists_and_eq_and, mentions_node constant]
        constructor
        · rintro ⟨operand, member, mentions⟩
          obtain ⟨other, mentioned, stays⟩ := (ih operand member).mp mentions
          exact ⟨other, ⟨operand, member, mentioned⟩, stays⟩
        · rintro ⟨other, ⟨operand, member, mentioned⟩, stays⟩
          exact ⟨operand, member, (ih operand member).mpr ⟨other, mentioned, stays⟩⟩

/-- What is assigned mentions no variables, so just those without an assignment stay. -/
theorem mentions_substitute (closed : ∀ id tree, assign id = some tree → tree.IsClosed) :
    (tree.substitute assign).Mentions id ↔ tree.Mentions id ∧ assign id = none := by
  rw [mentions_substitute_iff]
  constructor
  · rintro ⟨other, mentioned, stays⟩
    cases assigned : assign other with
    | none =>
        rw [assigned] at stays
        obtain rfl : id = other := stays
        exact ⟨mentioned, assigned⟩
    | some replaced =>
        rw [assigned] at stays
        exact absurd stays (closed other replaced assigned id)
  · rintro ⟨mentioned, unassigned⟩
    exact ⟨id, mentioned, by rw [unassigned]; rfl⟩

end TypeTree

namespace TypeTable

variable {table larger : TypeTable} {id other : TypeId} {type : TypeDef}

/-- No type variable hides behind the name of a distinct type. -/
def DistinctsClosed (table : TypeTable) : Prop :=
  ∀ id name underlying span, table.get? id = some (.distinct name underlying span) →
    (table.tree underlying).IsClosed

theorem distinctsClosed_of_none (none : ∀ cell ∈ table.cells.toList, cell.type.kind ≠ .distinct) :
    table.DistinctsClosed := by
  intro id name underlying span found
  unfold get? cell? at found
  split at found
  · obtain ⟨cell, atIndex, isDistinct⟩ := Option.map_eq_some_iff.mp found
    have notDistinct := none cell (Array.mem_toList_iff.mpr (Array.mem_of_getElem? atIndex))
    rw [isDistinct] at notDistinct
    exact absurd rfl notDistinct
  · cases found

theorem WellFormed.mentions_typevar (wellFormed : table.WellFormed) {name : String}
    (found : table.get? id = some (.typevar name)) : (table.tree id).Mentions other ↔ other = id := by
  rw [wellFormed.tree_eq found]
  exact TypeTree.mentions_typevar

/-- The label of a type that is no type variable. -/
theorem label_constant {type : TypeDef} (constant : type.kind ≠ .typevar) (id other : TypeId) :
    type.label id ≠ .typevar other := by
  cases type <;> simp_all [TypeDef.label, TypeDef.kind]

/-- The variables that a type mentions are those of its operands, unless it is one. -/
theorem WellFormed.mentions_operands (wellFormed : table.WellFormed) (found : table.get? id = some type)
    (constant : type.kind ≠ .typevar) :
    (table.tree id).Mentions other ↔ ∃ operand ∈ type.operands, (table.tree operand).Mentions other := by
  rw [wellFormed.tree_eq found, TypeTree.mentions_node (label_constant constant id)]
  simp only [List.mem_map, exists_exists_and_eq_and]

section Asking

theorem anyM_eq_false {items : List TypeId} {test : TypeId → Except Fault Bool} :
    items.anyM test = .ok false ↔ ∀ item ∈ items, test item = .ok false := by
  induction items with
  | nil => simp [List.anyM, pure, Except.pure]
  | cons item items ih =>
      rw [List.anyM, List.forall_mem_cons]
      cases test item with
      | error fault => simp [bind, Except.bind]
      | ok passes => cases passes <;> simp [bind, Except.bind, pure, Except.pure, ih]

/-- Type variables are asked for operand by operand. -/
theorem hasTypevarsWithin_eq (found : table.get? id = some type) (constant : type.kind ≠ .typevar) (depth : Nat) :
    table.hasTypevarsWithin (depth + 1) id = type.operands.anyM (table.hasTypevarsWithin depth) := by
  rw [hasTypevarsWithin, get_eq_ok.mpr found]
  cases type with
  | typevar name => exact absurd rfl constant
  | _ => rfl

theorem WellFormed.isClosed_of_hasTypevarsWithin (wellFormed : table.WellFormed) {depth : Nat}
    (none : table.hasTypevarsWithin depth id = .ok false) : (table.tree id).IsClosed := by
  induction depth generalizing id with
  | zero => cases none
  | succ depth ih =>
      cases found : table.get? id with
      | none => simp [hasTypevarsWithin, get, found, bind, Except.bind] at none
      | some type =>
          by_cases constant : type.kind ≠ .typevar
          · rw [hasTypevarsWithin_eq found constant, anyM_eq_false] at none
            intro other mentions
            obtain ⟨operand, member, mentions⟩ := (wellFormed.mentions_operands found constant).mp mentions
            exact ih (none operand member) other mentions
          · obtain ⟨name, rfl⟩ := exists_typevar (not_not.mp constant)
            simp [hasTypevarsWithin, get, found, bind, Except.bind, pure, Except.pure] at none

theorem WellFormed.hasTypevarsWithin_of_isClosed (wellFormed : table.WellFormed) {depth : Nat} {id : Int}
    (has : table.Has id) (deep : id.toNat ≤ depth) (closed : (table.tree id).IsClosed) :
    table.hasTypevarsWithin depth id = .ok false := by
  induction depth generalizing id with
  | zero => exact absurd deep (Nat.not_le_of_lt has.toNat_pos)
  | succ depth ih =>
      obtain ⟨type, found⟩ := has.exists
      have positive := (range_of_get? found).1
      have constant : type.kind ≠ .typevar := by
        intro isVariable
        obtain ⟨name, rfl⟩ := exists_typevar isVariable
        exact closed id ((wellFormed.mentions_typevar found).mpr rfl)
      rw [hasTypevarsWithin_eq found constant, anyM_eq_false]
      intro operand member
      obtain ⟨hasOperand, below⟩ := wellFormed.operand found member
      exact ih hasOperand (by omega) fun other mentions =>
        closed other ((wellFormed.mentions_operands found constant).mpr ⟨operand, member, mentions⟩)

theorem has_of_hasTypevars {answer : Bool} (asked : table.hasTypevars id = .ok answer) : table.Has id := by
  unfold Has
  cases found : table.get? id with
  | none => simp [hasTypevars, hasTypevarsWithin, get, found, bind, Except.bind] at asked
  | some type => rfl

theorem WellFormed.isClosed_of_hasTypevars (wellFormed : table.WellFormed) (none : table.hasTypevars id = .ok false) :
    (table.tree id).IsClosed :=
  wellFormed.isClosed_of_hasTypevarsWithin none

/-- The answer to the question for type variables is that there are none, when the spelling has none. -/
theorem WellFormed.hasTypevars_of_isClosed (wellFormed : table.WellFormed) (has : table.Has id)
    (closed : (table.tree id).IsClosed) : table.hasTypevars id = .ok false :=
  wellFormed.hasTypevarsWithin_of_isClosed has has.toNat_le closed

end Asking

/-- The variables that a type mentions are those of the types it is made from. -/
theorem WellFormed.mentions_parts (wellFormed : table.WellFormed) (closed : table.DistinctsClosed)
    (found : table.get? id = some type) (constant : type.kind ≠ .typevar) :
    (table.tree id).Mentions other ↔ ∃ part ∈ type.parts, (table.tree part).Mentions other := by
  rw [wellFormed.mentions_operands found constant]
  cases type with
  | distinct name underlying span =>
      have hidden := closed id name underlying span found other
      simpa [TypeDef.operands, TypeDef.parts] using hidden
  | applied head args =>
      obtain ⟨object, isObject, -⟩ := wellFormed.applied id head args found
      have named : ¬ (table.tree head).Mentions other := by
        rw [wellFormed.tree_eq isObject, TypeTree.mentions_node (by simp [TypeDef.label])]
        simp [TypeDef.operands]
      simp [TypeDef.operands, TypeDef.parts, named]
  | _ => simp [TypeDef.operands, TypeDef.parts]

end TypeTable
end LifecycleHooks

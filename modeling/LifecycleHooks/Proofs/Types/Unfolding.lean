import LifecycleHooks.Proofs.Types.WellFormed

/-!
# Unfolding types

On a well-formed table, questions about existing types always have an answer: the nesting
depth, the substitution of types for type variables, the body and the constituents.  The
answers are those of the spellings, and the table stays well formed.
-/

namespace LifecycleHooks
namespace TypeTable

variable {table larger : TypeTable} {id : TypeId} {type : TypeDef}

section Adding

theorem cell?_add (table : TypeTable) (type : TypeDef) (id : Int) :
    (table.add type).2.cell? id =
      if id = table.size + 1 then some { type := type } else table.cell? id := by
  unfold add cell?
  by_cases positive : 1 ≤ id
  · have atEnd : (id - 1).toNat = table.cells.size ↔ id = table.size + 1 := by
      unfold size
      omega
    simp only [positive, if_true, Array.getElem?_push, atEnd]
  · have notEnd : id ≠ table.size + 1 := by omega
    simp [positive, notEnd]

theorem get?_add (table : TypeTable) (type : TypeDef) (id : Int) :
    (table.add type).2.get? id = if id = table.size + 1 then some type else table.get? id := by
  unfold get?
  rw [cell?_add]
  split <;> rfl

theorem extends_add (table : TypeTable) (type : TypeDef) : table.Extends (table.add type).2 := by
  intro id cell found
  have known : table.get? id = some cell.type := by simp [get?, found]
  have notEnd : id ≠ (table.size + 1 : Int) :=
    Int.ne_of_lt (Int.lt_add_one_of_le (range_of_get? known).2)
  exact ⟨cell, by rw [cell?_add, if_neg notEnd, found], rfl, fun _ kept => kept, .inl rfl⟩

theorem get?_of_find? (found : table.find? type = some id) : table.get? id = some type := by
  obtain ⟨index, atIndex, rfl⟩ := Option.map_eq_some_iff.mp found
  obtain ⟨bound, isType, _⟩ := Array.findIdx?_eq_some_iff_getElem.mp atIndex
  have same : table.cells[index].type = type := by simpa using isType
  have positive : (1 : Int) ≤ index + 1 := by omega
  simp [get?, cell?, positive, bound, same]

theorem get?_ne_of_find?_eq_none (missing : table.find? type = none) (id : Int) :
    table.get? id ≠ some type := by
  intro found
  obtain ⟨cell, atCell, isType⟩ := Option.map_eq_some_iff.mp found
  have absent := Array.findIdx?_eq_none_iff.mp (Option.map_eq_none_iff.mp missing)
  unfold cell? at atCell
  split at atCell
  · exact absurd isType (by simpa using absent cell (Array.mem_of_getElem? atCell))
  · cases atCell

/-- A type that is new may be added to a well-formed table when its parts are known. -/
theorem WellFormed.add (wellFormed : table.WellFormed) (parts : ∀ part ∈ type.parts, table.Has part)
    (applied : ∀ head args, type = .applied head args → ∃ object,
      table.get? head = some (.object object) ∧ object.params ≠ [] ∧
        args.length = object.params.length)
    (bodies : ∀ object, type = .object object → ∀ slot ∈ object.body.slots, table.Has slot.type)
    (new : type.isStructural = true → ∀ id, table.get? id ≠ some type) :
    (table.add type).2.WellFormed := by
  have extends_ := extends_add table type
  have cases (id : Int) (found : TypeDef) (known : (table.add type).2.get? id = some found) :
      id = table.size + 1 ∧ found = type ∨ table.get? id = some found := by
    rw [get?_add] at known
    split at known
    · exact .inl ⟨‹_›, (Option.some.inj known).symm⟩
    · exact .inr known
  have isOld (id : Int) (cell : Cell) (known : (table.add type).2.cell? id = some cell) :
      cell = { type := type } ∨ table.cell? id = some cell := by
    rw [cell?_add] at known
    split at known
    · exact .inl (Option.some.inj known).symm
    · exact .inr known
  have has (id : TypeId) (cell : Cell) (known : table.cell? id = some cell) : table.Has id :=
    has_of_get? (show table.get? id = some cell.type by simp [get?, known])
  constructor
  case earlier =>
    intro id found known part member
    rcases cases id found known with ⟨rfl, rfl⟩ | before
    · obtain ⟨other, isPart⟩ := (parts part member).exists
      exact ⟨(parts part member).extends_ extends_, Int.lt_add_one_of_le (range_of_get? isPart).2⟩
    · obtain ⟨hasPart, below⟩ := wellFormed.earlier id found before part member
      exact ⟨hasPart.extends_ extends_, below⟩
  case applied =>
    intro id head args known
    rcases cases id _ known with ⟨_, same⟩ | before
    · obtain ⟨object, isHead, generic, sameLength⟩ := applied head args same.symm
      exact ⟨object, extends_.get? isHead, generic, sameLength⟩
    · obtain ⟨object, isHead, generic, sameLength⟩ := wellFormed.applied id head args before
      exact ⟨object, extends_.get? isHead, generic, sameLength⟩
  case bodies =>
    intro id object known slot member
    rcases cases id _ known with ⟨_, same⟩ | before
    · exact (bodies object same.symm slot member).extends_ extends_
    · exact (wellFormed.bodies id object before slot member).extends_ extends_
  case unique =>
    intro id other found structural known otherKnown
    rcases cases id found known with ⟨atEnd, rfl⟩ | before
    · rcases cases other found otherKnown with ⟨otherEnd, _⟩ | otherBefore
      · exact atEnd.trans otherEnd.symm
      · exact absurd otherBefore (new structural other)
    · rcases cases other found otherKnown with ⟨_, rfl⟩ | otherBefore
      · exact absurd before (new structural id)
      · exact wellFormed.unique id other found structural before otherBefore
  case depths =>
    intro id cell depth known remembered
    rcases isOld id cell known with rfl | before
    · cases remembered
    · rw [wellFormed.tree_extends extends_ (has id cell before)]
      exact wellFormed.depths id cell depth before remembered
  case kept =>
    intro id cell body known remembered
    rcases isOld id cell known with rfl | before
    · cases remembered
    · obtain ⟨same, hasSlots⟩ := wellFormed.kept id cell body before remembered
      refine ⟨?_, fun slot member => (hasSlots slot member).extends_ extends_⟩
      rw [wellFormed.constituentTrees_extends extends_ (has id cell before), ← same]
      exact List.map_congr_left fun slot member =>
        wellFormed.tree_extends extends_ (hasSlots slot member)

theorem shapes_add (table : TypeTable) (type : TypeDef) :
    (table.add type).2.shapes ⊆
      insert (type.label (table.size + 1 : Int), type.operands.length) table.shapes := by
  rintro shape ⟨id, found, known, rfl⟩
  rw [get?_add] at known
  split at known
  · obtain rfl := Option.some.inj known
    exact .inl (by simp [*])
  · exact .inr ⟨id, found, known, rfl⟩

end Adding

section Remembering

theorem get?_modifyCell (table : TypeTable) {change : Cell → Cell} (sameType : ∀ cell, (change cell).type = cell.type)
    (id other : Int) : (table.modifyCell id change).get? other = table.get? other := by
  unfold get?
  rw [cell?_modifyCell]
  split
  · subst other
    cases table.cell? id <;> simp [sameType]
  · rfl

/-- The spelling of a type is made from constructors and operands alone. -/
theorem treeWithin_congr
    (same : ∀ id, (larger.get? id).map (fun type => (type.label id, type.operands)) =
      (table.get? id).map fun type => (type.label id, type.operands)) (depth : Nat) (id : TypeId) :
    larger.treeWithin depth id = table.treeWithin depth id := by
  induction depth generalizing id with
  | zero => rfl
  | succ depth ih =>
      have sameType := same id
      rw [treeWithin, treeWithin]
      cases found : table.get? id with
      | none =>
          rw [found, Option.map_none, Option.map_eq_none_iff] at sameType
          rw [sameType]
      | some type =>
          rw [found, Option.map_some, Option.map_eq_some_iff] at sameType
          obtain ⟨other, otherFound, same⟩ := sameType
          obtain ⟨sameLabel, sameOperands⟩ := Prod.mk.inj same
          simp only [otherFound, sameLabel, sameOperands]
          exact congrArg (TypeTree.node _) (List.map_congr_left fun operand _ => ih operand)

theorem tree_modifyCell (table : TypeTable) (id : TypeId) {change : Cell → Cell}
    (sameType : ∀ cell, (change cell).type = cell.type) :
    (table.modifyCell id change).tree = table.tree :=
  funext fun other => treeWithin_congr (fun part => by rw [table.get?_modifyCell sameType]) _ other

theorem has_modifyCell (table : TypeTable) (id : TypeId) {change : Cell → Cell}
    (sameType : ∀ cell, (change cell).type = cell.type) :
    (table.modifyCell id change).Has = table.Has :=
  funext fun other => by simp only [Has, table.get?_modifyCell sameType]

/-- Remembering the right depth or the right body of a type keeps a table well formed. -/
theorem WellFormed.modifyCell (wellFormed : table.WellFormed) {change : Cell → Cell}
    (sameType : ∀ cell, (change cell).type = cell.type)
    (depths : ∀ cell depth, table.cell? id = some cell → (change cell).depth = some depth →
      depth = (table.tree id).depth)
    (kept : ∀ cell body, table.cell? id = some cell → (change cell).body = some body →
      (body.slots.map fun slot => table.tree slot.type) = table.constituentTrees (table.tree id) ∧
        ∀ slot ∈ body.slots, table.Has slot.type) :
    (table.modifyCell id change).WellFormed := by
  have same := table.get?_modifyCell sameType id
  have sameTree := table.tree_modifyCell id sameType
  have sameDeclared : (table.modifyCell id change).declared? = table.declared? :=
    funext fun other => by simp only [declared?, same]
  have sameConstituents : (table.modifyCell id change).constituentTrees = table.constituentTrees := by
    funext tree
    obtain ⟨label, operands⟩ := tree
    cases label <;> simp only [constituentTrees, sameTree, sameDeclared]
  have sameHas := table.has_modifyCell id sameType
  constructor
  case earlier => simpa only [same, sameHas] using wellFormed.earlier
  case applied => simpa only [same] using wellFormed.applied
  case bodies => simpa only [same, sameHas] using wellFormed.bodies
  case unique => simpa only [same] using wellFormed.unique
  case depths =>
    intro other cell depth found remembered
    rw [sameTree]
    rw [cell?_modifyCell] at found
    split at found
    · subst other
      obtain ⟨old, atOld, rfl⟩ := Option.map_eq_some_iff.mp found
      exact depths old depth atOld remembered
    · exact wellFormed.depths other cell depth found remembered
  case kept =>
    intro other cell body found remembered
    rw [sameTree, sameConstituents, sameHas]
    rw [cell?_modifyCell] at found
    split at found
    · subst other
      obtain ⟨old, atOld, rfl⟩ := Option.map_eq_some_iff.mp found
      exact kept old body atOld remembered
    · exact wellFormed.kept other cell body found remembered

theorem shapes_modifyCell (table : TypeTable) (id : TypeId) {change : Cell → Cell}
    (sameType : ∀ cell, (change cell).type = cell.type) :
    (table.modifyCell id change).shapes = table.shapes := by
  simp only [shapes, table.get?_modifyCell sameType]

end Remembering
end TypeTable

namespace TableM

open TypeTable Attempt

variable {table : TypeTable} {id : TypeId}

theorem fetch_run {type : TypeDef} (found : table.get? id = some type) :
    fetch id table = .ok type table :=
  fetch_eq_ok.mpr ⟨found, rfl⟩

/-- The one id of a structural type whose parts are known is found or made. -/
theorem intern_works {type : TypeDef} (wellFormed : table.WellFormed)
    (structural : type.isStructural = true) (parts : ∀ part ∈ type.parts, table.Has part)
    (applied : ∀ head args, type = .applied head args → ∃ object,
      table.get? head = some (.object object) ∧ object.params ≠ [] ∧
        args.length = object.params.length) :
    ∃ result larger, intern type table = .ok result larger ∧ larger.WellFormed ∧
      table.Extends larger ∧ larger.get? result = some type ∧
      ∀ id : TypeId, (type.label id, type.operands.length) ∈ table.shapes →
        table.Unfolds larger := by
  cases found : table.find? type with
  | some result =>
      refine ⟨result, table, ?_, wellFormed, .refl table, get?_of_find? found,
        fun _ _ => .refl table⟩
      unfold intern
      rw [get_bind_run, found]
      rfl
  | none =>
      refine ⟨table.nextId, (table.add type).2, ?_, wellFormed.add parts applied ?_ fun _ =>
        get?_ne_of_find?_eq_none found, extends_add table type, ?_, fun id known => ?_⟩
      · unfold intern
        rw [get_bind_run, found]
        rfl
      · rintro object rfl
        cases structural
      · rw [get?_add]
        exact if_pos rfl
      · refine ⟨extends_add table type, (shapes_add table type).trans ?_⟩
        have sameLabel : type.label (table.size + 1 : Int) = type.label id := by
          cases type <;> first | rfl | cases structural
        rw [sameLabel]
        exact Set.insert_subset known fun _ inside => inside

theorem ownName_object {table : TypeTable} {object : ObjectType}
    (found : table.get? id = some (.object object)) : table.ownName id = .ok object.name := by
  unfold ownName
  rw [get_eq_ok.mpr found]
  rfl

/-- The right number of arguments is all that an instance takes. -/
theorem instantiate_run {head : TypeId} {args : List TypeId} {object : ObjectType}
    (isHead : table.get? head = some (.object object)) (generic : object.params ≠ [])
    (sameLength : args.length = object.params.length) :
    instantiate head args table = intern (.applied head args) table := by
  have notEmpty : ¬ object.params.isEmpty = true := by simpa using generic
  unfold instantiate
  rw [bind_run_of_ok (fetch_run isHead), get_bind_run,
    bind_run_of_ok (ofExcept_eq_ok.mpr ⟨ownName_object isHead, rfl⟩), TypeDef.typeParams,
    if_neg notEmpty, if_neg (not_not.mpr sameLength)]

end TableM

namespace TypeTable

/-- The spellings of the types that stand for type variables. -/
def mappedTrees (table : TypeTable) (mapping : Substitution) (id : TypeId) : Option TypeTree :=
  (mapping.lookup id).map table.tree

variable {table larger : TypeTable} {mapping : Substitution}

theorem WellFormed.mappedTrees_extends (wellFormed : table.WellFormed)
    (extends_ : table.Extends larger) (values : ∀ pair ∈ mapping, table.Has pair.2) :
    larger.mappedTrees mapping = table.mappedTrees mapping := by
  funext id
  unfold mappedTrees
  cases found : mapping.lookup id with
  | none => rfl
  | some value =>
      simp [wellFormed.tree_extends extends_ (values _ (mem_of_lookup found))]

/-- A type is spelled as the substitution in the spelling of another one says. -/
def Substituted (table : TypeTable) (mapping : Substitution) (larger : TypeTable)
    (id result : TypeId) : Prop :=
  larger.Has result ∧ larger.tree result = (table.tree id).substitute (table.mappedTrees mapping)

/-- A slot is reached like another one and holds the substituted type. -/
def SubstitutedSlot (table : TypeTable) (mapping : Substitution) (larger : TypeTable)
    (slot result : Slot) : Prop :=
  result.step = slot.step ∧ table.Substituted mapping larger slot.type result.type

theorem Substituted.extends_ {middle later : TypeTable} {id result : TypeId}
    (wellFormed : middle.WellFormed) (substituted : table.Substituted mapping middle id result)
    (extends_ : middle.Extends later) : table.Substituted mapping later id result :=
  ⟨substituted.1.extends_ extends_,
    (wellFormed.tree_extends extends_ substituted.1).trans substituted.2⟩

theorem Substituted.map_tree {operands results : List TypeId}
    (substituted : List.Forall₂ (table.Substituted mapping larger) operands results) :
    results.map larger.tree =
        (operands.map table.tree).map (TypeTree.substitute (table.mappedTrees mapping)) ∧
      ∀ result ∈ results, larger.Has result := by
  induction substituted with
  | nil => simp
  | cons first rest ih =>
      refine ⟨?_, List.forall_mem_cons.mpr ⟨first.1, ih.2⟩⟩
      rw [List.map_cons, List.map_cons, List.map_cons, first.2, ih.1]

/-- A structural type whose operands were substituted is the substituted type. -/
theorem Substituted.of_operands {id result : TypeId} {type made : TypeDef}
    (wellFormed : table.WellFormed) (larger' : larger.WellFormed)
    (structural : type.isStructural = true) (found : table.get? id = some type)
    (isMade : larger.get? result = some made) (sameLabel : made.label result = type.label id)
    (substituted : List.Forall₂ (table.Substituted mapping larger) type.operands made.operands) :
    table.Substituted mapping larger id result := by
  refine ⟨has_of_get? isMade, ?_⟩
  rw [larger'.tree_eq isMade, wellFormed.tree_eq found, TypeTree.substitute_node, sameLabel,
    (Substituted.map_tree substituted).1]
  intro variable_
  cases type <;> simp [TypeDef.isStructural, TypeDef.label] at structural ⊢

end TypeTable

namespace TableM

open TypeTable Attempt

variable {table : TypeTable} {mapping : Substitution}

/-- Substitution in an existing type gives the type with the substituted spelling. -/
theorem substituteWithin_works {depth : Nat} {id : Int} (wellFormed : table.WellFormed)
    (values : ∀ pair ∈ mapping, table.Has pair.2) (has : table.Has id) (deep : id.toNat ≤ depth) :
    ∃ result larger, substituteWithin mapping depth id table = .ok result larger ∧
      larger.WellFormed ∧ table.Unfolds larger ∧ table.Substituted mapping larger id result := by
  induction depth generalizing id table with
  | zero => exact absurd deep (Nat.not_le_of_lt has.toNat_pos)
  | succ depth ih =>
      obtain ⟨type, found⟩ := has.exists
      have positive := (range_of_get? found).1
      have operandWorks : ∀ operand ∈ type.operands, ∀ middle : TypeTable, middle.WellFormed →
          table.Unfolds middle → ∃ result final, substituteWithin mapping depth operand middle =
            .ok result final ∧ final.WellFormed ∧ middle.Unfolds final ∧
              table.Substituted mapping final operand result := by
        intro operand member middle middle' unfolds
        obtain ⟨hasOperand, below⟩ := wellFormed.operand found member
        obtain ⟨result, final, run, final', onwards, hasResult, same⟩ := ih middle'
          (fun pair member => (values pair member).extends_ unfolds.extends_)
          (hasOperand.extends_ unfolds.extends_) (by omega)
        rw [wellFormed.tree_extends unfolds.extends_ hasOperand,
          wellFormed.mappedTrees_extends unfolds.extends_ values] at same
        exact ⟨result, final, run, final', onwards, hasResult, same⟩
      have shapeOf {middle : TypeTable} (unfolds : table.Unfolds middle) :
          (type.label id, type.operands.length) ∈ middle.shapes :=
        ⟨id, type, unfolds.extends_.get? found, rfl⟩
      have allWork := mapM_succeeds operandWorks (fun operand result middle later middle' told onwards =>
        told.extends_ middle' onwards.extends_) wellFormed
      -- A structural type with the substituted operands is found or made.
      have structuralWorks {middle : TypeTable} (middle' : middle.WellFormed)
          (unfolds : table.Unfolds middle) (made : TypeDef) (structural : type.isStructural = true)
          (structural' : made.isStructural = true)
          (parts : ∀ part ∈ made.parts, middle.Has part)
          (applied : ∀ head args, made = .applied head args → ∃ object,
            middle.get? head = some (.object object) ∧ object.params ≠ [] ∧
              args.length = object.params.length)
          (sameLabel : ∀ other : TypeId, made.label other = type.label id)
          (substituted : List.Forall₂ (table.Substituted mapping middle) type.operands made.operands) :
          ∃ result larger, intern made middle = .ok result larger ∧ larger.WellFormed ∧
            table.Unfolds larger ∧ table.Substituted mapping larger id result := by
        obtain ⟨result, larger, run, larger', extends_, isMade, unfolded⟩ :=
          intern_works middle' structural' parts applied
        have sameLength := substituted.length_eq
        have onwards := unfolded id (by rw [sameLabel, ← sameLength]; exact shapeOf unfolds)
        refine ⟨result, larger, run, larger', unfolds.trans onwards, ?_⟩
        exact .of_operands wellFormed larger' structural found isMade (sameLabel result)
          (substituted.imp fun _ _ told => told.extends_ middle' extends_)
      unfold substituteWithin
      rw [bind_run_of_ok (fetch_run found)]
      cases type with
      | typevar name =>
          refine ⟨(mapping.lookup id).getD id, table, rfl, wellFormed, .refl table, ?_⟩
          unfold Substituted
          rw [wellFormed.tree_eq found, TypeDef.label, TypeTree.substitute, mappedTrees]
          cases assigned : mapping.lookup id with
          | none => exact ⟨has, wellFormed.tree_eq found⟩
          | some value =>
              exact ⟨values _ (mem_of_lookup assigned), rfl⟩
      | array length element =>
          obtain ⟨part, middle, run, middle', unfolds, told⟩ :=
            operandWorks element (by simp [TypeDef.operands]) table wellFormed (.refl table)
          simp only [bind_run_of_ok run]
          exact structuralWorks middle' unfolds (.array length part) rfl rfl
            (by simpa [TypeDef.parts] using told.1) (by simp) (fun _ => rfl) (.cons told .nil)
      | tuple elements =>
          obtain ⟨parts, middle, run, middle', unfolds, told⟩ := allWork
          simp only [TypeDef.operands] at run told
          simp only [bind_run_of_ok run]
          exact structuralWorks middle' unfolds (.tuple parts) rfl rfl
            (Substituted.map_tree told).2 (by simp) (fun _ => rfl) told
      | wrap wrapper inner =>
          obtain ⟨part, middle, run, middle', unfolds, told⟩ :=
            operandWorks inner (by simp [TypeDef.operands]) table wellFormed (.refl table)
          simp only [bind_run_of_ok run]
          exact structuralWorks middle' unfolds (.wrap wrapper part) rfl rfl
            (by simpa [TypeDef.parts] using told.1) (by simp) (fun _ => rfl) (.cons told .nil)
      | applied head args =>
          obtain ⟨parts, middle, run, middle', unfolds, told⟩ := allWork
          simp only [TypeDef.operands] at run told
          simp only [bind_run_of_ok run]
          obtain ⟨object, isHead, generic, sameLength⟩ := wellFormed.applied id head args found
          have atMiddle := unfolds.extends_.get? isHead
          have partsLength : parts.length = object.params.length := told.length_eq.symm.trans sameLength
          rw [instantiate_run atMiddle generic partsLength]
          refine structuralWorks middle' unfolds (.applied head parts) rfl rfl ?_ ?_
            (fun _ => rfl) told
          · simpa [TypeDef.parts] using ⟨has_of_get? atMiddle, (Substituted.map_tree told).2⟩
          · rintro _ _ ⟨⟩
            exact ⟨object, atMiddle, generic, partsLength⟩
      | _ =>
          refine ⟨id, table, rfl, wellFormed, .refl table, has, ?_⟩
          rw [wellFormed.tree_eq found, TypeTree.substitute_node (by simp [TypeDef.label])]
          rfl

theorem substitute_works {id : TypeId} (wellFormed : table.WellFormed) (assigns : mapping ≠ [])
    (values : ∀ pair ∈ mapping, table.Has pair.2) (has : table.Has id) :
    ∃ result larger, substitute mapping id table = .ok result larger ∧ larger.WellFormed ∧
      table.Unfolds larger ∧ table.Substituted mapping larger id result := by
  have notEmpty : ¬ mapping.isEmpty = true := by simpa using assigns
  unfold substitute
  rw [if_neg notEmpty, get_bind_run]
  exact substituteWithin_works wellFormed values has has.toNat_le

/-- The body of an instance has the substituted slots, in the same order. -/
theorem substituteBody_works {body : Body} (wellFormed : table.WellFormed) (assigns : mapping ≠ [])
    (values : ∀ pair ∈ mapping, table.Has pair.2) (has : ∀ slot ∈ body.slots, table.Has slot.type) :
    ∃ result larger, substituteBody mapping body table = .ok result larger ∧ larger.WellFormed ∧
      table.Unfolds larger ∧
      List.Forall₂ (table.SubstitutedSlot mapping larger) body.slots result.slots := by
  have works {id : TypeId} (has : table.Has id) (middle : TypeTable) (middle' : middle.WellFormed)
      (unfolds : table.Unfolds middle) : ∃ result larger,
        substitute mapping id middle = .ok result larger ∧ larger.WellFormed ∧
          middle.Unfolds larger ∧ table.Substituted mapping larger id result := by
    obtain ⟨result, larger, run, larger', onwards, hasResult, same⟩ := substitute_works middle' assigns
      (fun pair member => (values pair member).extends_ unfolds.extends_)
      (has.extends_ unfolds.extends_)
    rw [wellFormed.tree_extends unfolds.extends_ has,
      wellFormed.mappedTrees_extends unfolds.extends_ values] at same
    exact ⟨result, larger, run, larger', onwards, hasResult, same⟩
  have fieldWorks : ∀ field ∈ body.fields, ∀ middle : TypeTable, middle.WellFormed →
      table.Unfolds middle → ∃ result final,
        (do return { field with type := ← substitute mapping field.type } : TableM Field) middle =
          .ok result final ∧ final.WellFormed ∧ middle.Unfolds final ∧
            (result.name = field.name ∧ table.Substituted mapping final field.type result.type) := by
    intro field member middle middle' unfolds
    have hasField := has ⟨.field field.name, field.type⟩ (by
      simpa [Body.slots] using ⟨field, member, rfl, rfl⟩)
    obtain ⟨result, larger, run, larger', onwards, told⟩ := works hasField middle middle' unfolds
    refine ⟨{ field with type := result }, larger, ?_, larger', onwards, rfl, told⟩
    rw [bind_run_of_ok run]
    rfl
  obtain ⟨fields, middle, run, middle', unfolds, told⟩ := mapM_succeeds fieldWorks
    (fun field result middle later middle' told onwards =>
      ⟨told.1, told.2.extends_ middle' onwards.extends_⟩) wellFormed
  have fieldSlots {larger : TypeTable} (onwards : middle.Unfolds larger) :
      List.Forall₂ (table.SubstitutedSlot mapping larger)
        (body.fields.map fun field => (⟨.field field.name, field.type⟩ : Slot))
        (fields.map fun field => ⟨.field field.name, field.type⟩) := by
    rw [List.forall₂_map_left_iff, List.forall₂_map_right_iff]
    exact told.imp fun field field' same =>
      ⟨by rw [same.1], same.2.extends_ middle' onwards.extends_⟩
  unfold substituteBody
  rw [bind_run_of_ok run]
  cases isBase : body.base with
  | none =>
      refine ⟨⟨fields, none⟩, middle, rfl, middle', unfolds, ?_⟩
      simpa [Body.slots, isBase] using fieldSlots (.refl middle)
  | some base =>
      have hasBase := has ⟨.base, base⟩ (by simp [Body.slots, isBase])
      obtain ⟨result, larger, baseRun, larger', onwards, baseTold⟩ := works hasBase middle middle' unfolds
      refine ⟨⟨fields, some result⟩, larger, ?_, larger', unfolds.trans onwards, ?_⟩
      · have mapped : Option.mapM (substitute mapping) (some base) middle = .ok (some result) larger := by
          change (do let result ← substitute mapping base; pure (some result) : TableM _) middle = _
          rw [bind_run_of_ok baseRun]
          rfl
        rw [bind_run_of_ok mapped]
        rfl
      · rw [Body.slots, isBase]
        exact .cons ⟨rfl, baseTold⟩ (fieldSlots onwards)

theorem mappedTrees_zip (table : TypeTable) (params args : List TypeId) :
    table.mappedTrees (params.zip args) = assignment params (args.map table.tree) := by
  funext id
  unfold mappedTrees assignment
  induction params generalizing args with
  | nil => rfl
  | cons param params ih =>
      cases args with
      | nil => rfl
      | cons arg args =>
          simp only [List.zip_cons_cons, List.map_cons, List.lookup_cons]
          cases id == param with
          | true => rfl
          | false => exact ih args

/-- The slots of a body hold the types of the given spellings. -/
def HoldsSlots (table : TypeTable) (slots : List Slot) (trees : List TypeTree) : Prop :=
  (slots.map fun slot => table.tree slot.type) = trees ∧ ∀ slot ∈ slots, table.Has slot.type

theorem SubstitutedSlot.holdsSlots {table larger : TypeTable} {slots results : List Slot}
    (told : List.Forall₂ (table.SubstitutedSlot mapping larger) slots results) :
    HoldsSlots larger results
      (slots.map fun slot => (table.tree slot.type).substitute (table.mappedTrees mapping)) := by
  induction told with
  | nil => exact ⟨rfl, by simp⟩
  | cons first rest ih =>
      exact ⟨congrArg₂ List.cons first.2.2 ih.1, List.forall_mem_cons.mpr ⟨first.2.1, ih.2⟩⟩

/-- The constituents of an instance come from the body of its generic object. -/
theorem constituentTrees_instance {id head : TypeId} {args : List TypeId} {object : ObjectType}
    (wellFormed : table.WellFormed) (found : table.get? id = some (.applied head args))
    (isHead : table.get? head = some (.object object)) :
    table.constituentTrees (table.tree id) = object.body.slots.map fun slot =>
      (table.tree slot.type).substitute (table.mappedTrees (object.params.zip args)) := by
  rw [wellFormed.tree_eq found, mappedTrees_zip]
  simp only [TypeDef.label, constituentTrees, declared?_eq_some.mpr ⟨isHead, rfl⟩, TypeDef.operands]

/-- The body that was worked out for an instance may be remembered. -/
theorem keepBody_works {id : TypeId} {result : Body} (wellFormed : table.WellFormed)
    (holds : HoldsSlots table result.slots (table.constituentTrees (table.tree id))) :
    (table.modifyCell id fun cell => { cell with body := some result }).WellFormed := by
  refine wellFormed.modifyCell (fun _ => rfl) (fun cell depth atCell known => ?_) ?_
  · exact wellFormed.depths id cell depth atCell known
  · rintro cell body atCell ⟨⟩
    exact holds

theorem instanceBody_works {id head : TypeId} {args : List TypeId} {cell : Cell}
    (wellFormed : table.WellFormed) (found : table.get? id = some (.applied head args))
    (atCell : table.cell? id = some cell) (unknown : cell.body = none) :
    ∃ result larger, body id table = .ok result larger ∧ larger.WellFormed ∧
      larger.shapes ⊆ table.shapes ∧
      HoldsSlots larger result.slots (table.constituentTrees (table.tree id)) := by
  obtain ⟨object, isHead, generic, sameLength⟩ := wellFormed.applied id head args found
  have assigns : object.params.zip args ≠ [] := by
    intro empty
    have lengths := congrArg List.length empty
    rw [List.length_zip, sameLength, Nat.min_self] at lengths
    exact generic (List.length_eq_zero_iff.mp lengths)
  have values : ∀ pair ∈ object.params.zip args, table.Has pair.2 := fun pair member =>
    (wellFormed.earlier id _ found pair.2
      (by simp [TypeDef.parts, (List.of_mem_zip member).2])).1
  obtain ⟨result, middle, run, middle', unfolds, told⟩ :=
    substituteBody_works wellFormed assigns values (wellFormed.bodies head object isHead)
  have holds := SubstitutedSlot.holdsSlots told
  rw [← constituentTrees_instance wellFormed found isHead] at holds
  have has := has_of_get? found
  have sameType : ∀ cell : Cell, ({ cell with body := some result } : Cell).type = cell.type :=
    fun _ => rfl
  refine ⟨result, middle.modifyCell id fun cell => { cell with body := some result }, ?_, ?_, ?_, ?_⟩
  · unfold body
    rw [bind_run_of_ok (fetch_run found)]
    dsimp only
    rw [get_bind_run, atCell, Option.bind_some, unknown]
    dsimp only
    rw [bind_run_of_ok (fetch_run isHead)]
    dsimp only
    rw [bind_run_of_ok run]
    rfl
  · refine keepBody_works middle' ?_
    rwa [wellFormed.constituentTrees_extends unfolds.extends_ has]
  · rw [middle.shapes_modifyCell id sameType]
    exact unfolds.shapes
  · unfold HoldsSlots
    rw [middle.tree_modifyCell id sameType, middle.has_modifyCell id sameType]
    exact holds

/-- The body of an existing object or instance holds its constituents. -/
theorem body_works {id : TypeId} {type : TypeDef} (wellFormed : table.WellFormed)
    (found : table.get? id = some type)
    (hasBody : (∃ object, type = .object object) ∨ ∃ head args, type = .applied head args) :
    ∃ result larger, body id table = .ok result larger ∧ larger.WellFormed ∧
      table.Unfolds larger ∧ HoldsSlots larger result.slots (table.constituentTrees (table.tree id)) := by
  rcases hasBody with ⟨object, rfl⟩ | ⟨head, args, rfl⟩
  · refine ⟨object.body, table, ?_, wellFormed, .refl table, ?_, wellFormed.bodies id object found⟩
    · unfold body
      rw [bind_run_of_ok (fetch_run found)]
      rfl
    · rw [wellFormed.tree_eq found]
      simp only [TypeDef.label, constituentTrees, declared?_eq_some.mpr ⟨found, rfl⟩]
  · obtain ⟨cell, atCell, sameType⟩ := Option.map_eq_some_iff.mp found
    cases remembered : cell.body with
    | some known =>
        refine ⟨known, table, ?_, wellFormed, .refl table, wellFormed.kept id cell known atCell remembered⟩
        unfold body
        rw [bind_run_of_ok (fetch_run found)]
        dsimp only
        rw [get_bind_run, atCell, Option.bind_some, remembered]
        rfl
    | none =>
        obtain ⟨result, larger, run, larger', shapes, holds⟩ :=
          instanceBody_works wellFormed found atCell remembered
        exact ⟨result, larger, run, larger', ⟨(body_extends id).of_ok run, shapes⟩, holds⟩

/-- The constituents of an existing type are those of its spelling. -/
theorem constituents_works {id : TypeId} (wellFormed : table.WellFormed) (has : table.Has id) :
    ∃ slots larger, constituents id table = .ok slots larger ∧ larger.WellFormed ∧
      table.Unfolds larger ∧ HoldsSlots larger slots (table.constituentTrees (table.tree id)) := by
  obtain ⟨type, found⟩ := has.exists
  have hasOperands : ∀ operand ∈ type.operands, table.Has operand := fun operand member =>
    (wellFormed.operand found member).1
  have fromBody (hasBody : (∃ object, type = .object object) ∨ ∃ head args, type = .applied head args) :
      ∃ slots larger, (do return (← body id).slots : TableM (List Slot)) table = .ok slots larger ∧
        larger.WellFormed ∧ table.Unfolds larger ∧
          HoldsSlots larger slots (table.constituentTrees (table.tree id)) := by
    obtain ⟨result, larger, run, larger', unfolds, holds⟩ := body_works wellFormed found hasBody
    refine ⟨result.slots, larger, ?_, larger', unfolds, holds⟩
    rw [bind_run_of_ok run]
    rfl
  unfold constituents
  rw [bind_run_of_ok (fetch_run found)]
  cases type with
  | object object => exact fromBody (.inl ⟨object, rfl⟩)
  | applied head args => exact fromBody (.inr ⟨head, args, rfl⟩)
  | distinct name underlying span =>
      refine ⟨_, table, rfl, wellFormed, .refl table, ?_, ?_⟩
      · rw [wellFormed.tree_eq found]
        simp only [TypeDef.label, constituentTrees, declared?_eq_some.mpr ⟨found, rfl⟩, List.map_cons,
          List.map_nil]
      · simpa using (wellFormed.earlier id _ found underlying (by simp [TypeDef.parts])).1
  | array length element =>
      refine ⟨_, table, rfl, wellFormed, .refl table, ?_, by simpa [TypeDef.operands] using hasOperands⟩
      rw [wellFormed.tree_eq found]
      rfl
  | tuple elements =>
      refine ⟨_, table, rfl, wellFormed, .refl table, ?_, ?_⟩
      · rw [wellFormed.tree_eq found]
        simp only [TypeDef.label, constituentTrees, TypeDef.operands, List.map_map]
        conv_rhs => rw [← List.zipIdx_map_fst 0 elements, List.map_map]
        rfl
      · intro slot member
        obtain ⟨⟨element, index⟩, inside, rfl⟩ := List.mem_map.mp member
        exact hasOperands element (List.fst_mem_of_mem_zipIdx inside)
  | wrap wrapper inner =>
      have hasInner : table.Has inner := hasOperands inner (by simp [TypeDef.operands])
      have sameTree : table.constituentTrees (table.tree id) = [table.tree inner] := by
        rw [wellFormed.tree_eq found]
        rfl
      cases wrapper <;>
        exact ⟨_, table, rfl, wellFormed, .refl table, by rw [sameTree]; rfl, by simpa using hasInner⟩
  | _ =>
      refine ⟨[], table, rfl, wellFormed, .refl table, ?_, by simp⟩
      rw [wellFormed.tree_eq found]
      simp only [TypeDef.label, constituentTrees, List.map_nil]
      try simp only [declared?_eq_some.mpr ⟨found, rfl⟩]

theorem foldl_max_le {depths : List Nat} {start bound : Nat} :
    depths.foldl max start ≤ bound ↔ start ≤ bound ∧ ∀ depth ∈ depths, depth ≤ bound := by
  induction depths generalizing start with
  | nil => simp
  | cons depth depths ih =>
      rw [List.foldl_cons, ih, List.forall_mem_cons, max_le_iff, and_assoc]

/-- The nesting depth of a spelling is worked out from the depths of its operands. -/
theorem depth_eq (label : TypeLabel) (operands : List TypeTree) :
    (TypeTree.node label operands).depth =
      if operands.isEmpty then 0 else (operands.map TypeTree.depth).foldl max 0 + 1 := by
  refine eq_of_forall_ge_iff fun bound => ?_
  rw [TypeTree.depth_le]
  cases operands with
  | nil => simp
  | cons operand operands =>
      rw [if_neg (by simp)]
      cases bound with
      | zero => simpa using ⟨operand, fun different => absurd rfl different⟩
      | succ bound =>
          rw [Nat.add_le_add_iff_right, List.map_cons, List.foldl_cons, foldl_max_le]
          simp

theorem nestingWithin_works {depth : Nat} {id : Int} (wellFormed : table.WellFormed)
    (has : table.Has id) (deep : id.toNat ≤ depth) :
    ∃ larger, nestingWithin depth id table = .ok (table.tree id).depth larger ∧
      larger.WellFormed ∧ table.Unfolds larger := by
  induction depth generalizing id table with
  | zero => exact absurd deep (Nat.not_le_of_lt has.toNat_pos)
  | succ depth ih =>
      obtain ⟨type, found⟩ := has.exists
      have positive := (range_of_get? found).1
      obtain ⟨cell, atCell, sameType⟩ := Option.map_eq_some_iff.mp found
      unfold nestingWithin
      rw [get_bind_run, atCell, Option.bind_some]
      cases remembered : cell.depth with
      | some known =>
          obtain rfl := wellFormed.depths id cell known atCell remembered
          exact ⟨table, rfl, wellFormed, .refl table⟩
      | none =>
          dsimp only
          rw [bind_run_of_ok (fetch_run found)]
          have operandWorks : ∀ operand ∈ type.operands, ∀ middle : TypeTable, middle.WellFormed →
              table.Unfolds middle → ∃ result final, nestingWithin depth operand middle =
                .ok result final ∧ final.WellFormed ∧ middle.Unfolds final ∧
                  (table.tree operand).depth = result := by
            intro operand member middle middle' unfolds
            obtain ⟨hasOperand, below⟩ := wellFormed.operand found member
            obtain ⟨final, run, final', onwards⟩ := ih middle'
              (hasOperand.extends_ unfolds.extends_) (by omega)
            rw [wellFormed.tree_extends unfolds.extends_ hasOperand] at run
            exact ⟨_, final, run, final', onwards, rfl⟩
          obtain ⟨depths, middle, run, middle', unfolds, told⟩ := mapM_succeeds operandWorks
            (fun _ _ _ _ _ told _ => told) wellFormed
          have sameDepths : (type.operands.map table.tree).map TypeTree.depth = depths := by
            have pointwise := List.forall₂_map_left_iff.mpr told
            rw [List.forall₂_eq_eq_eq] at pointwise
            rw [List.map_map]
            exact pointwise
          have result : (if type.operands.isEmpty then 0 else depths.foldl max 0 + 1) =
              (table.tree id).depth := by
            rw [wellFormed.tree_eq found, depth_eq, sameDepths]
            simp
          have sameType : ∀ cell : Cell,
              ({ cell with depth := some (table.tree id).depth } : Cell).type = cell.type := fun _ => rfl
          refine ⟨middle.modifyCell id fun cell => { cell with depth := some (table.tree id).depth },
            ?_, ?_, unfolds.trans ⟨?_, ?_⟩⟩
          · rw [bind_run_of_ok run, result]
            rfl
          · refine middle'.modifyCell sameType ?_ ?_
            · rintro cell depth atCell ⟨⟩
              rw [wellFormed.tree_extends unfolds.extends_ has]
            · exact fun cell body atCell known => middle'.kept id cell body atCell known
          · exact extends_modifyCell middle id _ sameType fun _ _ => .inl rfl
          · rw [middle.shapes_modifyCell id sameType]

/-- The nesting depth of an existing type is that of its spelling. -/
theorem nesting_works {id : TypeId} (wellFormed : table.WellFormed) (has : table.Has id) :
    ∃ larger, nesting id table = .ok (table.tree id).depth larger ∧ larger.WellFormed ∧
      table.Unfolds larger := by
  unfold nesting
  rw [get_bind_run]
  exact nestingWithin_works wellFormed has has.toNat_le

end TableM

namespace TypeTable

/-- All type parameters of objects are known. -/
def ParamsKnown (table : TypeTable) : Prop :=
  ∀ id object, table.get? id = some (.object object) → ∀ param ∈ object.params, table.Has param

variable {table : TypeTable}

theorem mapM_answers {First Second : Type} {items : List First} {question : First → Except Fault Second}
    (each : ∀ item ∈ items, ∃ answer, question item = .ok answer) :
    ∃ answers, items.mapM question = .ok answers := by
  induction items with
  | nil => exact ⟨[], rfl⟩
  | cons item items ih =>
      obtain ⟨answer, first⟩ := each item List.mem_cons_self
      obtain ⟨answers, rest⟩ := ih fun other member => each other (List.mem_cons_of_mem item member)
      exact ⟨answer :: answers, by simp [List.mapM_cons, first, rest, bind, Except.bind, pure, Except.pure]⟩

theorem bind_answers {First Second : Type} {question : Except Fault First} {answer : First}
    {next : First → Except Fault Second} (first : question = .ok answer)
    (rest : ∃ answer', next answer = .ok answer') : ∃ answer', (question >>= next) = .ok answer' := by
  subst question
  exact rest

theorem ownName_answers (wellFormed : table.WellFormed) {id : TypeId} (has : table.Has id) :
    ∃ name, table.ownName id = .ok name := by
  obtain ⟨type, found⟩ := has.exists
  unfold ownName
  refine bind_answers (get_eq_ok.mpr found) ?_
  cases type with
  | applied head args =>
      obtain ⟨object, isHead, _⟩ := wellFormed.applied id head args found
      exact bind_answers (get_eq_ok.mpr isHead) ⟨_, rfl⟩
  | _ => exact ⟨_, rfl⟩

theorem declaredAt_answers (wellFormed : table.WellFormed) {id : TypeId} (has : table.Has id) :
    ∃ span, table.declaredAt id = .ok span := by
  obtain ⟨type, found⟩ := has.exists
  unfold declaredAt
  refine bind_answers (get_eq_ok.mpr found) ?_
  cases type with
  | applied head args =>
      obtain ⟨object, isHead, _⟩ := wellFormed.applied id head args found
      exact bind_answers (get_eq_ok.mpr isHead) ⟨_, rfl⟩
  | _ => exact ⟨_, rfl⟩

theorem spellWithin_answers (wellFormed : table.WellFormed) (known : table.ParamsKnown)
    {depth : Nat} {id : Int} (has : table.Has id) (deep : id.toNat ≤ depth) :
    ∃ text, table.spellWithin depth id = .ok text := by
  induction depth generalizing id with
  | zero => exact absurd deep (Nat.not_le_of_lt has.toNat_pos)
  | succ depth ih =>
      obtain ⟨type, found⟩ := has.exists
      have positive := (range_of_get? found).1
      have operandAnswers : ∀ operand ∈ type.operands, ∃ text, table.spellWithin depth operand = .ok text := by
        intro operand member
        obtain ⟨hasOperand, below⟩ := wellFormed.operand found member
        exact ih hasOperand (by omega)
      unfold spellWithin
      refine bind_answers (get_eq_ok.mpr found) ?_
      cases type with
      | array length element =>
          obtain ⟨inner, spelled⟩ := operandAnswers element (by simp [TypeDef.operands])
          exact bind_answers spelled ⟨_, rfl⟩
      | tuple elements =>
          obtain ⟨inner, spelled⟩ := mapM_answers operandAnswers
          exact bind_answers spelled ⟨_, rfl⟩
      | wrap wrapper operand =>
          obtain ⟨inner, spelled⟩ := operandAnswers operand (by simp [TypeDef.operands])
          cases wrapper <;> exact bind_answers spelled ⟨_, rfl⟩
      | applied head args =>
          obtain ⟨name, named⟩ := ownName_answers wellFormed has
          obtain ⟨inner, spelled⟩ := mapM_answers operandAnswers
          exact bind_answers named (bind_answers spelled ⟨_, rfl⟩)
      | object object =>
          obtain ⟨inner, spelled⟩ := mapM_answers fun param member =>
            ownName_answers wellFormed (known id object found param member)
          change ∃ text, (if object.params.isEmpty then _ else _ : Except Fault String) = .ok text
          split
          · exact ⟨_, rfl⟩
          · exact bind_answers spelled ⟨_, rfl⟩
      | _ => exact ownName_answers wellFormed has

/-- Every existing type can be spelled. -/
theorem spell_answers (wellFormed : table.WellFormed) (known : table.ParamsKnown) {id : TypeId}
    (has : table.Has id) : ∃ text, table.spell id = .ok text := by
  exact spellWithin_answers wellFormed known has has.toNat_le

theorem head?_answers {id : TypeId} {type : TypeDef} (found : table.get? id = some type) :
    ∃ head, table.head? id = .ok head := by
  unfold head?
  refine bind_answers (get_eq_ok.mpr found) ?_
  cases type <;> exact ⟨_, rfl⟩

end TypeTable
end LifecycleHooks

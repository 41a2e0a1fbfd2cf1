import LifecycleHooks.Proofs.Types.Regular

/-!
# Building type tables

A table is built by its own operations, each of which is given types that exist.  Every
table that is built is regular.
-/

namespace LifecycleHooks

/-- An operation on a table, with what it is given. -/
inductive TableCall where
  | int
  | bool
  | void
  | unknown
  | scalar (name : String)
  | typevar (name : String)
  | object (name : String) (params : List String) (span : Span)
  | distinct (name : String) (underlying : TypeId) (span : Span)
  | array (length : Int) (element : TypeId)
  | tuple (elements : List TypeId)
  | wrap (wrapper : Wrapper) (inner : TypeId)
  | instantiate (head : TypeId) (args : List TypeId)
  | define (id : TypeId) (contents : Body)
  | body (id : TypeId)
  | constituents (id : TypeId)
  | nesting (id : TypeId)
  | substitute (mapping : Substitution) (id : TypeId)
  | fieldType (fuel : Nat) (id : TypeId) (name : String)

namespace TableCall

/-- The types that an operation is given. -/
def given : TableCall → List TypeId
  | .int | .bool | .void | .unknown | .scalar _ | .typevar _ | .object .. => []
  | .distinct _ underlying _ => [underlying]
  | .array _ element => [element]
  | .tuple elements => elements
  | .wrap _ inner => [inner]
  | .instantiate head args => head :: args
  | .define id contents => id :: contents.slots.map Slot.type
  | .body id | .constituents id | .nesting id | .fieldType _ id _ => [id]
  | .substitute mapping id => id :: mapping.map Prod.snd

/-- Carry out an operation; only what the table becomes is of interest. -/
def run : TableCall → TableM Unit
  | .int => do let _ ← TableM.int
  | .bool => do let _ ← TableM.bool
  | .void => do let _ ← TableM.void
  | .unknown => do let _ ← TableM.unknown
  | .scalar name => do let _ ← TableM.scalar name
  | .typevar name => do let _ ← TableM.typevar name
  | .object name params span => do let _ ← TableM.declareObject name params span
  | .distinct name underlying span => do let _ ← TableM.declareDistinct name underlying span
  | .array length element => do let _ ← TableM.array length element
  | .tuple elements => do let _ ← TableM.tuple elements
  | .wrap wrapper inner => do let _ ← TableM.wrap wrapper inner
  | .instantiate head args => do let _ ← TableM.instantiate head args
  | .define id contents => TableM.defineObject id contents
  | .body id => do let _ ← TableM.body id
  | .constituents id => do let _ ← TableM.constituents id
  | .nesting id => do let _ ← TableM.nesting id
  | .substitute mapping id => do let _ ← TableM.substitute mapping id
  | .fieldType fuel id name => do let _ ← TableM.fieldType? fuel id name

/-- Whether an operation gives a new body to an object that exists. -/
def isDefinition : TableCall → Bool
  | .define .. => true
  | _ => false

end TableCall

namespace TypeTable

open Attempt

/-- The tables that can be built, whether or not each operation succeeded. -/
inductive Built : TypeTable → Prop where
  | empty : Built {}
  | call {table : TypeTable} (earlier : Built table) (call : TableCall)
      (has : ∀ id ∈ call.given, table.Has id) : Built (call.run.finish table)

variable {table larger : TypeTable} {id : TypeId} {type : TypeDef}

theorem Regular.remember (regular : table.Regular) {changed : TypeTable}
    (sameCells : changed.cells = table.cells) : changed.Regular := by
  have sameCell (id : TypeId) : changed.cell? id = table.cell? id := by
    unfold cell?
    rw [sameCells]
  have same (id : TypeId) : changed.get? id = table.get? id := by
    unfold get?
    rw [sameCell]
  have sameTree : changed.tree = table.tree := funext fun id => treeWithin_congr (fun part => by rw [same]) _ id
  have sameHas : changed.Has = table.Has := funext fun id => by simp only [Has, same]
  have sameConstituents : changed.constituentTrees = table.constituentTrees := by
    funext tree
    obtain ⟨label, operands⟩ := tree
    cases label <;> simp only [constituentTrees, sameTree, declared?, same]
  constructor
  case toWellFormed =>
    constructor
    case earlier => simpa only [same, sameHas] using regular.earlier
    case applied => simpa only [same] using regular.applied
    case bodies => simpa only [same, sameHas] using regular.bodies
    case unique => simpa only [same] using regular.unique
    case depths => simpa only [sameCell, sameTree] using regular.depths
    case kept => simpa only [sameCell, sameTree, sameConstituents, sameHas] using regular.kept
  case params => simpa only [ParamsDistinct, same] using regular.params
  case instances => simpa only [KeepsInstances, sameCell] using regular.instances

section Defining

/-- A table in which an object has another body. -/
def withBody (table : TypeTable) (id : TypeId) (object : ObjectType) (contents : Body) : TypeTable :=
  let changed := table.modifyCell id fun cell =>
    { cell with type := .object { object with body := contents } }
  { changed with
    cells := changed.cells.map fun cell =>
      if TableM.isInstanceOf id cell.type then { cell with body := none } else cell }

theorem cell?_withBody (table : TypeTable) (id : TypeId) (object : ObjectType) (contents : Body)
    (other : TypeId) :
    (table.withBody id object contents).cell? other =
      (if other = id then (table.cell? id).map fun cell =>
        { cell with type := .object { object with body := contents } }
      else table.cell? other).map fun cell =>
        if TableM.isInstanceOf id cell.type then { cell with body := none } else cell := by
  rw [← cell?_modifyCell]
  unfold withBody cell?
  split <;> simp

/-- The object itself is the only type that changes. -/
theorem get?_withBody {object : ObjectType} (isObject : table.get? id = some (.object object)) (contents : Body)
    (other : TypeId) :
    (table.withBody id object contents).get? other =
      if other = id then some (.object { object with body := contents }) else table.get? other := by
  obtain ⟨own, atOwn, -⟩ := Option.map_eq_some_iff.mp isObject
  unfold get?
  rw [cell?_withBody, atOwn]
  split
  · simp [TableM.isInstanceOf]
  · cases table.cell? other with
    | none => rfl
    | some cell => by_cases isInstance : TableM.isInstanceOf id cell.type <;> simp [isInstance]

/-- A table that differs from another one by the body of an object.  A body stays
remembered only where nothing changed, at an instance of another object. -/
structure Redefines (table changed : TypeTable) (id : TypeId) (object : ObjectType)
    (contents : Body) : Prop where
  isObject : table.get? id = some (.object object)
  types : ∀ other, changed.get? other =
    if other = id then some (.object { object with body := contents }) else table.get? other
  cells : ∀ other cell, changed.cell? other = some cell →
    ∃ before, table.cell? other = some before ∧ cell.depth = before.depth ∧
      (cell.body ≠ none → cell = before ∧ TableM.isInstanceOf id before.type = false)

variable {changed : TypeTable} {object : ObjectType} {contents : Body}

theorem Redefines.has_eq (redefines : table.Redefines changed id object contents) :
    changed.Has = table.Has := by
  funext other
  unfold Has
  rw [redefines.types]
  split
  · subst other
    simp [redefines.isObject]
  · rfl

theorem Redefines.tree_eq (redefines : table.Redefines changed id object contents) :
    changed.tree = table.tree := by
  funext other
  refine treeWithin_congr (fun part => ?_) _ other
  rw [redefines.types]
  split
  · subst part
    simp [redefines.isObject, TypeDef.label, TypeDef.operands]
  · rfl

/-- Types other than objects are the same before and after. -/
theorem Redefines.get?_iff (redefines : table.Redefines changed id object contents) {other : TypeId}
    (notObject : ∀ object, type ≠ .object object) :
    changed.get? other = some type ↔ table.get? other = some type := by
  rw [redefines.types]
  split
  · subst other
    rw [redefines.isObject]
    exact ⟨fun found => absurd (Option.some.inj found).symm (notObject _),
      fun found => absurd (Option.some.inj found).symm (notObject _)⟩
  · rfl

/-- An object keeps its parameters. -/
theorem Redefines.keepsParams (redefines : table.Redefines changed id object contents) {other : TypeId}
    {first : ObjectType} (found : changed.get? other = some (.object first)) :
    ∃ second, table.get? other = some (.object second) ∧ second.params = first.params ∧
      (first.body = contents ∨ first.body = second.body) := by
  rw [redefines.types] at found
  split at found
  · subst other
    obtain rfl := TypeDef.object.inj (Option.some.inj found)
    exact ⟨object, redefines.isObject, rfl, .inl rfl⟩
  · exact ⟨first, found, rfl, .inr rfl⟩

theorem Redefines.wellFormed (redefines : table.Redefines changed id object contents)
    (regular : table.Regular) (has : ∀ slot ∈ contents.slots, table.Has slot.type) :
    changed.WellFormed := by
  constructor
  case earlier =>
    intro other type found part member
    rw [redefines.has_eq]
    refine regular.earlier other type ((redefines.get?_iff fun object isObject => ?_).mp found) part member
    subst isObject
    simp [TypeDef.parts] at member
  case applied =>
    intro other head args found
    obtain ⟨first, isHead, generic, sameLength⟩ :=
      regular.applied other head args ((redefines.get?_iff (by simp)).mp found)
    rw [redefines.types head]
    split
    · subst head
      obtain rfl := TypeDef.object.inj (Option.some.inj (isHead.symm.trans redefines.isObject))
      exact ⟨_, rfl, generic, sameLength⟩
    · exact ⟨first, isHead, generic, sameLength⟩
  case bodies =>
    intro other first found slot member
    rw [redefines.has_eq]
    obtain ⟨second, before, _, sameBody | sameBody⟩ := redefines.keepsParams found
    · exact has slot (sameBody ▸ member)
    · exact regular.bodies other second before slot (sameBody ▸ member)
  case unique =>
    intro first second type structural found otherFound
    have notObject (object : ObjectType) : type ≠ .object object := by
      rintro rfl
      cases structural
    exact regular.unique first second type structural ((redefines.get?_iff notObject).mp found)
      ((redefines.get?_iff notObject).mp otherFound)
  case depths =>
    intro other cell depth found isDepth
    obtain ⟨before, atBefore, sameDepth, _⟩ := redefines.cells other cell found
    rw [redefines.tree_eq]
    exact regular.depths other before depth atBefore (sameDepth ▸ isDepth)
  case kept =>
    intro other cell body found isKept
    obtain ⟨before, atBefore, _, unchanged⟩ := redefines.cells other cell found
    obtain ⟨rfl, notInstance⟩ := unchanged (by simp [isKept])
    obtain ⟨head, args, isApplied⟩ := regular.instances other cell atBefore (by simp [isKept])
    have differ : head ≠ id := by simpa [isApplied, TableM.isInstanceOf] using notInstance
    have known : table.get? other = some (.applied head args) := by simp [get?, atBefore, isApplied]
    have sameConstituents : changed.constituentTrees (table.tree other) =
        table.constituentTrees (table.tree other) := by
      rw [regular.tree_eq known]
      simp only [TypeDef.label, constituentTrees, declared?, redefines.types, if_neg differ,
        redefines.tree_eq]
    rw [redefines.has_eq, redefines.tree_eq, sameConstituents]
    exact regular.kept other cell body atBefore isKept

/-- Giving an object a body whose types exist keeps a table regular. -/
theorem Redefines.regular (redefines : table.Redefines changed id object contents)
    (regular : table.Regular) (has : ∀ slot ∈ contents.slots, table.Has slot.type) :
    changed.Regular where
  toWellFormed := redefines.wellFormed regular has
  params := by
    intro other first found
    obtain ⟨second, before, sameParams, _⟩ := redefines.keepsParams found
    obtain ⟨nodup, typevars⟩ := regular.params other second before
    rw [← sameParams]
    refine ⟨nodup, fun param member => ?_⟩
    obtain ⟨name, isTypevar⟩ := typevars param member
    exact ⟨name, (redefines.get?_iff (by simp)).mpr isTypevar⟩
  instances := by
    intro other cell found isKept
    obtain ⟨before, atBefore, _, unchanged⟩ := redefines.cells other cell found
    obtain ⟨rfl, _⟩ := unchanged isKept
    exact regular.instances other cell atBefore isKept

end Defining
end TypeTable

namespace TableM

open TypeTable Attempt

variable {table : TypeTable} {id : TypeId}

theorem defineObject_run {object : ObjectType} (isObject : table.get? id = some (.object object))
    (contents : Body) :
    defineObject id contents table = .ok () (table.withBody id object contents) := by
  unfold defineObject
  rw [bind_run_of_ok (fetch_run isObject)]
  rfl

theorem withBody_redefines (keeps : table.KeepsInstances) {object : ObjectType}
    (isObject : table.get? id = some (.object object)) (contents : Body) :
    table.Redefines (table.withBody id object contents) id object contents := by
  obtain ⟨own, atOwn, sameType⟩ := Option.map_eq_some_iff.mp isObject
  have cells := table.cell?_withBody id object contents
  simp only [atOwn, Option.map_some] at cells
  have notInstance : isInstanceOf id (.object { object with body := contents }) = false := rfl
  constructor
  case isObject => exact isObject
  case types => exact get?_withBody isObject contents
  case cells =>
    intro other cell found
    rw [cells] at found
    split at found
    · subst other
      have noBody : own.body = none := by
        by_contra isKept
        obtain ⟨head, args, isApplied⟩ := keeps id own atOwn isKept
        cases sameType.symm.trans isApplied
      simp only [Option.map_some, notInstance, Option.some.injEq] at found
      subst found
      exact ⟨own, atOwn, rfl, fun isKept => absurd noBody isKept⟩
    · obtain ⟨before, atBefore, rfl⟩ := Option.map_eq_some_iff.mp found
      refine ⟨before, atBefore, ?_, ?_⟩
      · split <;> rfl
      · split
        · exact fun isKept => absurd rfl isKept
        · rename_i notInstance
          exact fun _ => ⟨rfl, Bool.eq_false_of_not_eq_true notInstance⟩

section Making

theorem intern_regular {type : TypeDef} (regular : table.Regular) (structural : type.isStructural = true)
    (parts : ∀ part ∈ type.parts, table.Has part)
    (applied : ∀ head args, type = .applied head args → ∃ object,
      table.get? head = some (.object object) ∧ object.params ≠ [] ∧
        args.length = object.params.length) :
    ((intern type).finish table).Regular := by
  unfold intern finish
  rw [get_bind_run]
  cases found : table.find? type with
  | some id => exact regular
  | none =>
      refine regular.add parts ?_ applied fun _ => get?_ne_of_find?_eq_none found
      rintro object rfl
      cases structural

theorem instantiate_regular {head : TypeId} {args : List TypeId} (regular : table.Regular)
    (has : ∀ id ∈ head :: args, table.Has id) : ((instantiate head args).finish table).Regular := by
  obtain ⟨type, isHead⟩ := (has head List.mem_cons_self).exists
  obtain ⟨name, named⟩ := ownName_answers regular.toWellFormed (has head List.mem_cons_self)
  unfold instantiate finish
  rw [bind_run_of_ok (fetch_run isHead), get_bind_run,
    bind_run_of_ok (ofExcept_eq_ok.mpr ⟨named, rfl⟩)]
  split_ifs with notGeneric sameLength
  · exact regular
  · exact regular
  · refine intern_regular regular rfl has ?_
    intro other others same
    obtain ⟨rfl, rfl⟩ := TypeDef.applied.inj same
    cases type with
    | object object =>
        refine ⟨object, isHead, ?_, by simpa [TypeDef.typeParams] using sameLength⟩
        rintro empty
        simp [TypeDef.typeParams, empty] at notGeneric
    | _ => simp [TypeDef.typeParams] at notGeneric

end Making
end TableM

namespace TypeTable

variable {table : TypeTable}

section Declaring

/-- Type variables that are added one after the other. -/
def withTypevars (table : TypeTable) (names : List String) : TypeTable :=
  names.foldl (fun table name => (table.add (.typevar name)).2) table

/-- The table in which an object type is declared. -/
def withObject (table : TypeTable) (name : String) (params : List String) (span : Span) : TypeTable :=
  withTypevars (table.add (.object {
    name := name
    params := (List.range params.length).map fun (index : Nat) => table.nextId + 1 + (index : Int)
    body := {}
    span := span })).2 params

theorem withTypevars_extends (table : TypeTable) (names : List String) :
    table.Extends (table.withTypevars names) := by
  induction names generalizing table with
  | nil => exact .refl table
  | cons name names ih => exact (extends_add table _).trans (ih _)

theorem withTypevars_wellFormed {names : List String} (wellFormed : table.WellFormed)
    (keeps : table.KeepsInstances) :
    (table.withTypevars names).WellFormed ∧ (table.withTypevars names).KeepsInstances := by
  induction names generalizing table with
  | nil => exact ⟨wellFormed, keeps⟩
  | cons name names ih =>
      apply ih
      · apply wellFormed.add
        · simp [TypeDef.parts]
        · simp
        · simp
        · simp [TypeDef.isStructural]
      · exact keeps.add _

/-- Nothing but type variables is added. -/
theorem withTypevars_type {names : List String} {id : TypeId} {type : TypeDef}
    (found : (table.withTypevars names).get? id = some type) :
    (∃ name, type = .typevar name) ∨ table.get? id = some type := by
  induction names generalizing table with
  | nil => exact .inr found
  | cons name names ih =>
      cases ih found with
      | inl isTypevar => exact .inl isTypevar
      | inr before =>
          rw [get?_add] at before
          split at before
          · exact .inl ⟨name, (Option.some.inj before).symm⟩
          · exact .inr before

/-- The type variables get the next ids, one after the other. -/
theorem get?_withTypevars {names : List String} {index : Nat} {name : String} (named : names[index]? = some name) :
    (table.withTypevars names).get? ((table.size : Int) + 1 + index) = some (.typevar name) := by
  induction names generalizing table index with
  | nil => cases named
  | cons first names ih =>
      cases index with
      | zero =>
          obtain rfl := Option.some.inj named
          refine (withTypevars_extends _ names).get? ?_
          rw [get?_add, if_pos (by simp)]
      | succ index =>
          have behind : ((table.add (.typevar first)).2.withTypevars names).get?
              (((table.add (.typevar first)).2.size : Int) + 1 + index) = some (.typevar name) := ih named
          rw [size_add] at behind
          have same : (table.size : Int) + 1 + (index + 1 : Nat) = ((table.size + 1 : Nat) : Int) + 1 + index := by omega
          rw [same]
          exact behind

theorem withTypevars_typevar {names : List String} {id : Int} (above : table.size < id)
    (inside : id ≤ table.size + names.length) :
    ∃ name, (table.withTypevars names).get? id = some (.typevar name) := by
  obtain ⟨index, rfl⟩ : ∃ index : Nat, id = table.size + 1 + index := ⟨(id - table.size - 1).toNat, by omega⟩
  have bound : index < names.length := by omega
  exact ⟨names[index], get?_withTypevars (List.getElem?_eq_getElem bound)⟩

/-- Declaring an object keeps a table regular: the type parameters follow the object. -/
theorem Regular.withObject (regular : table.Regular) (name : String) (params : List String)
    (span : Span) : (table.withObject name params span).Regular := by
  have declared : (table.add (.object {
      name := name
      params := (List.range params.length).map fun (index : Nat) => table.nextId + 1 + (index : Int)
      body := {}
      span := span })).2.WellFormed := by
    apply regular.toWellFormed.add
    · simp [TypeDef.parts]
    · simp
    · simp [Body.slots]
    · simp [TypeDef.isStructural]
  refine ⟨(withTypevars_wellFormed declared (regular.instances.add _)).1, fun id object found => ?_,
    (withTypevars_wellFormed declared (regular.instances.add _)).2⟩
  obtain ⟨_, impossible⟩ | before := withTypevars_type found
  · cases impossible
  rw [get?_add] at before
  split at before
  · obtain rfl := TypeDef.object.inj (Option.some.inj before)
    refine ⟨?_, fun param member => ?_⟩
    · refine List.Nodup.map (fun first second same => ?_) List.nodup_range
      have : (first : Int) = second := Int.add_left_cancel same
      omega
    · obtain ⟨index, inside, rfl⟩ := List.mem_map.mp member
      have bound := List.mem_range.mp inside
      apply withTypevars_typevar <;> rw [size_add] <;> simp only [nextId, size] <;> omega
  · obtain ⟨nodup, typevars⟩ := regular.params id object before
    refine ⟨nodup, fun param member => ?_⟩
    obtain ⟨name, isTypevar⟩ := typevars param member
    exact ⟨name, (withTypevars_extends _ params).get? ((extends_add table _).get? isTypevar)⟩

end Declaring
end TypeTable

namespace TableM

open TypeTable Attempt

theorem forIn_typevar_run (names : List String) (table : TypeTable) :
    (forIn names PUnit.unit fun name _ => do
      let _ ← typevar name
      pure (ForInStep.yield PUnit.unit) : TableM PUnit) table = .ok () (table.withTypevars names) := by
  induction names generalizing table with
  | nil => rfl
  | cons name names ih =>
      rw [List.forIn_cons]
      exact ih _

theorem declareObject_run (table : TypeTable) (name : String) (params : List String) (span : Span) :
    declareObject name params span table = .ok table.nextId (table.withObject name params span) := by
  unfold declareObject
  rw [get_bind_run, add, bind_run_of_ok (modifyGet_run _ _),
    bind_run_of_ok (forIn_typevar_run params _)]
  rfl

theorem builtIn_regular {table : TypeTable} (regular : table.Regular)
    {known : TypeTable → Option TypeId} {remember : TypeId → TypeTable → TypeTable} {type : TypeDef}
    (named : type.isStructural = false) (notObject : ∀ object, type ≠ .object object)
    (parts : type.parts = []) (sameCells : ∀ id table, (remember id table).cells = table.cells) :
    ((builtIn known remember type).finish table).Regular := by
  unfold builtIn finish
  rw [get_bind_run]
  cases known table with
  | some id => exact regular
  | none =>
      have added := regular.addNamed named notObject (by simp [parts])
      exact added.remember (sameCells _ _)

theorem defineObject_unchanged {table : TypeTable} {id : TypeId} {type : TypeDef}
    (found : table.get? id = some type) (notObject : ∀ object, type ≠ .object object) (contents : Body) :
    (defineObject id contents).finish table = table := by
  unfold defineObject finish
  rw [bind_run_of_ok (fetch_run found)]
  cases type with
  | object object => exact absurd rfl (notObject object)
  | _ =>
      simp only [get_bind_run]
      rw [bind_run]
      cases table.ownName id <;> rfl

end TableM

namespace TableCall

open TypeTable TableM Attempt

variable {table : TypeTable}

theorem finish_bind_pure {State First : Type} (action : Attempt State First) (state : State) :
    (do let _ ← action : Attempt State Unit).finish state = action.finish state := by
  unfold finish
  rw [bind_run]
  cases action state <;> rfl

/-- Every operation that is given existing types leaves a regular table regular. -/
theorem run_regular (call : TableCall) (regular : table.Regular)
    (has : ∀ id ∈ call.given, table.Has id) : (call.run.finish table).Regular := by
  cases call <;> rw [run]
  case define id contents =>
    obtain ⟨type, found⟩ := (has id (by simp [given])).exists
    by_cases isObject : ∃ object, type = .object object
    · obtain ⟨object, rfl⟩ := isObject
      rw [finish_of_ok (defineObject_run found contents)]
      apply (withBody_redefines regular.instances found contents).regular regular
      intro slot member
      exact has slot.type (List.mem_cons_of_mem _ (List.mem_map_of_mem member))
    · rw [defineObject_unchanged found (fun object same => isObject ⟨object, same⟩)]
      exact regular
  all_goals rw [finish_bind_pure]
  case int => exact builtIn_regular regular rfl (by simp) rfl fun _ _ => rfl
  case bool => exact builtIn_regular regular rfl (by simp) rfl fun _ _ => rfl
  case void => exact builtIn_regular regular rfl (by simp) rfl fun _ _ => rfl
  case unknown => exact builtIn_regular regular rfl (by simp) rfl fun _ _ => rfl
  case scalar name => exact regular.addNamed rfl (by simp) (by simp [TypeDef.parts])
  case typevar name => exact regular.addNamed rfl (by simp) (by simp [TypeDef.parts])
  case distinct name underlying span => exact regular.addNamed rfl (by simp) has
  case object name params span =>
    rw [finish_of_ok (declareObject_run table name params span)]
    exact regular.withObject name params span
  case array length element => exact intern_regular regular rfl has (by simp)
  case tuple elements => exact intern_regular regular rfl has (by simp)
  case wrap wrapper inner => exact intern_regular regular rfl has (by simp)
  case instantiate head args => exact instantiate_regular regular has
  case body id => exact ((body_unrolls id).finish table regular).1
  case constituents id => exact ((constituents_unrolls id).finish table regular).1
  case nesting id => exact ((nesting_unrolls id).finish table regular).1
  case fieldType fuel id name =>
    exact ((fieldTypeFrom_preserves body_unrolls name fuel [] id).finish table regular).1
  case substitute mapping id =>
    by_cases assigns : mapping = []
    · subst assigns
      exact regular
    · have values : ∀ pair ∈ mapping, table.Has pair.2 := fun pair member =>
        has pair.2 (List.mem_cons_of_mem _ (List.mem_map_of_mem member))
      obtain ⟨result, larger, run, wellFormed, unfolds, _⟩ :=
        substitute_works regular.toWellFormed assigns values (has id (by simp [given]))
      have appends := (substitute_appends mapping id).of_ok run
      rw [finish_of_ok run]
      exact ⟨wellFormed, regular.params.unfolds unfolds, regular.instances.appends appends⟩

theorem add_extends (type : TypeDef) : (TableM.add type).Preserves Extends :=
  fun table => extends_add table type

theorem builtIn_extends {known : TypeTable → Option TypeId} {remember : TypeId → TypeTable → TypeTable}
    {type : TypeDef} (sameCells : ∀ id table, (remember id table).cells = table.cells) :
    (builtIn known remember type).Preserves Extends := by
  refine leads_get.bind fun table => ?_
  split
  · exact leads_pure _
  · refine (add_extends type).bind fun id => (leads_modify fun table => ?_).bind fun _ => leads_pure _
    have same (other : TypeId) : (remember id table).cell? other = table.cell? other := by
      unfold cell?
      rw [sameCells]
    intro other cell found
    exact ⟨cell, (same other).trans found, rfl, fun _ known => known, .inl rfl⟩

/-- Unless it redefines an object, an operation only extends a table. -/
theorem run_extends (call : TableCall) (grows : call.isDefinition = false) :
    call.run.Preserves Extends := by
  have ignores {Result : Type} {action : TableM Result} (extends_ : action.Preserves Extends) :
      (do let _ ← action : TableM Unit).Preserves Extends := extends_.bind fun _ => leads_pure _
  have interns {type : TypeDef} (structural : type.isStructural) : (intern type).Preserves Extends :=
    (intern_appends structural).mono (fun _ _ => Appends.extends_) fun _ _ => Appends.extends_
  cases call <;> rw [run]
  case define id contents => cases grows
  all_goals apply ignores
  case int => exact builtIn_extends fun _ _ => rfl
  case bool => exact builtIn_extends fun _ _ => rfl
  case void => exact builtIn_extends fun _ _ => rfl
  case unknown => exact builtIn_extends fun _ _ => rfl
  case scalar name => exact add_extends _
  case typevar name => exact add_extends _
  case distinct name underlying span => exact add_extends _
  case object name params span =>
    intro table
    rw [declareObject_run]
    exact (extends_add table _).trans (withTypevars_extends _ params)
  case array length element => exact interns rfl
  case tuple elements => exact interns rfl
  case wrap wrapper inner => exact interns rfl
  case instantiate head args =>
    exact (instantiate_appends head args).mono (fun _ _ => Appends.extends_) fun _ _ => Appends.extends_
  case body id => exact body_extends id
  case constituents id => exact constituents_extends id
  case nesting id => exact nesting_extends id
  case fieldType fuel id name => exact fieldTypeFrom_preserves body_extends name fuel [] id
  case substitute mapping id =>
    exact (substitute_appends mapping id).mono (fun _ _ => Appends.extends_) fun _ _ => Appends.extends_

end TableCall

namespace TypeTable

open TableCall

/-- Whatever its own operations make of a table, it is regular. -/
theorem Built.regular {table : TypeTable} (built : table.Built) : table.Regular := by
  induction built with
  | empty =>
      have nothing (id : TypeId) : cell? {} id = none := by
        unfold cell?
        split <;> simp
      have noType (id : TypeId) : get? {} id = none := by
        rw [get?, nothing, Option.map_none]
      constructor
      case toWellFormed => constructor <;> simp [noType, nothing]
      case params => simp [ParamsDistinct, noType]
      case instances => simp [KeepsInstances, nothing]
  | call earlier call has regular => exact call.run_regular regular has

/-- The table that operations make of another one, in order. -/
def after (table : TypeTable) : List TableCall → TypeTable
  | [] => table
  | call :: rest => (call.run.finish table).after rest

/-- Whether each of the operations is given types that exist by then. -/
def knowsGiven (table : TypeTable) : List TableCall → Bool
  | [] => true
  | call :: rest =>
      call.given.all (fun id => (table.get? id).isSome) && (call.run.finish table).knowsGiven rest

theorem Built.after {table : TypeTable} (built : table.Built) {calls : List TableCall}
    (known : table.knowsGiven calls = true) : (table.after calls).Built := by
  induction calls generalizing table with
  | nil => exact built
  | cons call rest ih =>
      rw [knowsGiven, Bool.and_eq_true, List.all_eq_true] at known
      exact ih (built.call call known.1) known.2

end TypeTable
end LifecycleHooks

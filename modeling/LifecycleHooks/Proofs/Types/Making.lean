import LifecycleHooks.Program.Signature
import LifecycleHooks.Proofs.Safety
import LifecycleHooks.Proofs.Types.Building

/-!
# Making types out of existing ones

A table is proper when it is regular and its built-in types exist.  As long as it is given
existing types, everything that is asked of a proper table while a program is lowered is
answered, with existing types again, and leaves the table proper.  A field is looked up along
bases, so there the budget can run out.
-/

namespace LifecycleHooks
namespace TypeTable

open Attempt

/-- The built-in types made so far. -/
def builtIns (table : TypeTable) : List TypeId :=
  table.int?.toList ++ table.bool?.toList ++ table.void?.toList ++ table.unknown?.toList

/-- A regular table whose built-in types exist. -/
structure Proper (table : TypeTable) : Prop extends Regular table where
  builtIns : ∀ id ∈ table.builtIns, table.Has id

/-- What runs on a proper table gives an existing type, and leaves the table proper and all
types in place. -/
def Makes (action : TableM TypeId) (table : TypeTable) : Prop :=
  Yields Proper Extends (fun id larger => larger.Has id) action table

/-- The same built-in types were made. -/
def SameBuiltIns (table larger : TypeTable) : Prop :=
  larger.builtIns = table.builtIns

instance : IsPreorder TypeTable SameBuiltIns where
  refl _ := rfl
  trans _ _ _ first second := second.trans first

variable {table larger last : TypeTable} {id : TypeId} {type : TypeDef}

theorem Proper.grows (proper : table.Proper) (regular : larger.Regular) (extends_ : table.Extends larger)
    (same : SameBuiltIns table larger) : larger.Proper ∧ table.Extends larger :=
  ⟨⟨regular, fun id member => (proper.builtIns id (same ▸ member)).extends_ extends_⟩, extends_⟩

theorem builtIns_modifyCell (table : TypeTable) (id : TypeId) (change : Cell → Cell) :
    (table.modifyCell id change).builtIns = table.builtIns := by
  unfold modifyCell
  split <;> rfl

theorem withObject_sameBuiltIns (table : TypeTable) (name : String) (params : List String) (span : Span) :
    SameBuiltIns table (table.withObject name params span) := by
  have kept (names : List String) (table : TypeTable) : (table.withTypevars names).builtIns = table.builtIns := by
    induction names generalizing table with
    | nil => rfl
    | cons name names ih => exact ih _
  exact kept params _

/-- An object type. -/
def IsObject (table : TypeTable) (id : TypeId) : Prop :=
  ∃ object, table.get? id = some (.object object)

theorem IsObject.has (isObject : table.IsObject id) : table.Has id := by
  obtain ⟨object, found⟩ := isObject
  exact has_of_get? found

theorem IsObject.extends_ (isObject : table.IsObject id) (extends_ : table.Extends larger) :
    larger.IsObject id := by
  obtain ⟨object, found⟩ := isObject
  exact ⟨object, extends_.get? found⟩

/-- All types and all objects are kept, though an object may get a body. -/
structure Keeps (table changed : TypeTable) : Prop where
  has : ∀ id, table.Has id → changed.Has id
  objects : ∀ id, table.IsObject id → changed.IsObject id

theorem Extends.keeps (extends_ : table.Extends larger) : table.Keeps larger :=
  ⟨fun _ has => has.extends_ extends_, fun _ isObject => isObject.extends_ extends_⟩

end TypeTable

namespace TableM

open TypeTable Attempt

variable {table : TypeTable} {id : TypeId}

section BuiltIns

theorem intern_sameBuiltIns (type : TypeDef) : (intern type).Preserves SameBuiltIns := by
  refine leads_get.bind fun table => ?_
  split
  · exact leads_pure _
  · exact fun _ => rfl

theorem body_sameBuiltIns (id : TypeId) : (body id).Preserves SameBuiltIns :=
  body_preserves (fun type _ => intern_sameBuiltIns type) (fun table id _ => table.builtIns_modifyCell id _) id

theorem nesting_sameBuiltIns (id : TypeId) : (nesting id).Preserves SameBuiltIns :=
  leads_get.bind fun _ => nestingWithin_preserves (fun table id _ => table.builtIns_modifyCell id _) _ id

end BuiltIns

section Making

/-- A built-in type without parts, which is found under the id that is remembered for it. -/
structure IsBuiltIn (known : TypeTable → Option TypeId) (remember : TypeId → TypeTable → TypeTable)
    (type : TypeDef) : Prop where
  named : type.isStructural = false
  notObject : ∀ object, type ≠ .object object
  parts : type.parts = []
  isKnown : ∀ table id, known table = some id → id ∈ table.builtIns
  sameCells : ∀ id table, (remember id table).cells = table.cells
  remembers : ∀ (id : TypeId) (table : TypeTable), ∀ other ∈ (remember id table).builtIns,
    other = id ∨ other ∈ table.builtIns

theorem int_isBuiltIn : IsBuiltIn (·.int?) (fun id table => { table with int? := some id }) (.scalar "Int") :=
  ⟨rfl, by simp, rfl, fun _ id found => by simp [builtIns, found], fun _ _ => rfl, by simp +contextual [builtIns]⟩

theorem bool_isBuiltIn : IsBuiltIn (·.bool?) (fun id table => { table with bool? := some id }) (.scalar "Bool") :=
  ⟨rfl, by simp, rfl, fun _ id found => by simp [builtIns, found], fun _ _ => rfl, by simp only [builtIns]; grind⟩

theorem void_isBuiltIn : IsBuiltIn (·.void?) (fun id table => { table with void? := some id }) .void :=
  ⟨rfl, by simp, rfl, fun _ id found => by simp [builtIns, found], fun _ _ => rfl, by simp only [builtIns]; grind⟩

theorem unknown_isBuiltIn : IsBuiltIn (·.unknown?) (fun id table => { table with unknown? := some id }) .unknown :=
  ⟨rfl, by simp, rfl, fun _ id found => by simp [builtIns, found], fun _ _ => rfl, by simp only [builtIns]; grind⟩

/-- What is made for a built-in type is found under its id. -/
theorem IsBuiltIn.get?_remember {known : TypeTable → Option TypeId} {remember : TypeId → TypeTable → TypeTable}
    {type : TypeDef} (isBuiltIn : IsBuiltIn known remember type) (table : TypeTable) :
    (remember table.nextId (table.add type).2).get? table.nextId = some type := by
  unfold get? cell?
  rw [isBuiltIn.sameCells]
  exact (get?_add table type _).trans (if_pos rfl)

/-- A built-in type is made on first use and remembered. -/
theorem builtIn_makes {known : TypeTable → Option TypeId} {remember : TypeId → TypeTable → TypeTable}
    {type : TypeDef} (isBuiltIn : IsBuiltIn known remember type) (proper : table.Proper) :
    Makes (builtIn known remember type) table := by
  unfold builtIn
  refine Safe.after (get_run table) ?_
  cases found : known table with
  | some id => exact yields_pure proper (proper.builtIns id (isBuiltIn.isKnown table id found))
  | none =>
      let added := (table.add type).2
      have regular : (remember table.nextId added).Regular :=
        (proper.addNamed isBuiltIn.named isBuiltIn.notObject (by simp [isBuiltIn.parts])).remember (isBuiltIn.sameCells _ _)
      have sameTypes (id : TypeId) : (remember table.nextId added).cell? id = added.cell? id := by
        unfold cell?
        rw [isBuiltIn.sameCells]
      have extends_ : table.Extends (remember table.nextId added) := by
        intro id cell found
        obtain ⟨other, inAdded, same⟩ := extends_add table type id cell found
        exact ⟨other, (sameTypes id).trans inAdded, same⟩
      have made : (remember table.nextId added).Has table.nextId := has_of_get? (isBuiltIn.get?_remember table)
      have run : (do
          let id ← add type
          modify (remember id)
          return id : TableM TypeId) table = .ok table.nextId (remember table.nextId added) := rfl
      refine safe_of_ok run ⟨⟨⟨regular, ?_⟩, extends_⟩, made⟩
      intro id member
      rcases isBuiltIn.remembers _ _ id member with rfl | before
      · exact made
      · exact (proper.builtIns id before).extends_ extends_

theorem int_makes (proper : table.Proper) : Makes int table :=
  builtIn_makes int_isBuiltIn proper

theorem bool_makes (proper : table.Proper) : Makes bool table :=
  builtIn_makes bool_isBuiltIn proper

theorem void_makes (proper : table.Proper) : Makes void table :=
  builtIn_makes void_isBuiltIn proper

theorem unknown_makes (proper : table.Proper) : Makes unknown table :=
  builtIn_makes unknown_isBuiltIn proper

theorem intern_makes {type : TypeDef} (proper : table.Proper) (structural : type.isStructural = true)
    (parts : ∀ part ∈ type.parts, table.Has part)
    (applied : ∀ head args, type = .applied head args → ∃ object,
      table.get? head = some (.object object) ∧ object.params ≠ [] ∧
        args.length = object.params.length) : Makes (intern type) table := by
  obtain ⟨id, larger, run, -, extends_, found, -⟩ := intern_works proper.toWellFormed structural parts applied
  have regular := intern_regular proper.toRegular structural parts applied
  rw [finish_of_ok run] at regular
  have same := (intern_sameBuiltIns type).of_ok run
  exact safe_of_ok run ⟨proper.grows regular extends_ same, has_of_get? found⟩

theorem array_makes {element : TypeId} (proper : table.Proper) (length : Int) (has : table.Has element) :
    Makes (array length element) table :=
  intern_makes proper rfl (by simpa [TypeDef.parts] using has) (by simp)

theorem tuple_makes {elements : List TypeId} (proper : table.Proper)
    (has : ∀ element ∈ elements, table.Has element) : Makes (tuple elements) table :=
  intern_makes proper rfl has (by simp)

theorem wrap_makes {inner : TypeId} (proper : table.Proper) (wrapper : Wrapper) (has : table.Has inner) :
    Makes (wrap wrapper inner) table :=
  intern_makes proper rfl (by simpa [TypeDef.parts] using has) (by simp)

/-- Only a generic object takes arguments. -/
theorem exists_object_of_args {type : TypeDef} {args : List TypeId} (sameLength : args.length = type.typeParams.length)
    (generic : args ≠ []) : ∃ object, type = .object object ∧ object.params ≠ [] := by
  cases type with
  | object object =>
      refine ⟨object, rfl, ?_⟩
      rintro none
      rw [TypeDef.typeParams, none] at sameLength
      exact generic (List.eq_nil_of_length_eq_zero sameLength)
  | _ => exact absurd (List.eq_nil_of_length_eq_zero sameLength) generic

/-- A generic object takes as many arguments as it has parameters. -/
theorem instantiate_makes {type : TypeDef} {args : List TypeId} (proper : table.Proper)
    (found : table.get? id = some type) (sameLength : args.length = type.typeParams.length)
    (generic : args ≠ []) (has : ∀ arg ∈ args, table.Has arg) :
    Makes (instantiate id args) table := by
  obtain ⟨object, rfl, params⟩ := exists_object_of_args sameLength generic
  have same := instantiate_run found params sameLength
  have safe : Makes (intern (.applied id args)) table := by
    refine intern_makes proper rfl ?_ ?_
    · exact List.forall_mem_cons.mpr ⟨has_of_get? found, has⟩
    · rintro _ _ ⟨⟩
      exact ⟨object, found, params, sameLength⟩
  unfold Makes Yields Safe at safe ⊢
  rwa [same]

/-- A type other than an object that goes by a name of its own. -/
theorem addNamed_makes {type : TypeDef} (proper : table.Proper) (named : type.isStructural = false)
    (notObject : ∀ object, type ≠ .object object) (parts : ∀ part ∈ type.parts, table.Has part) :
    Makes (add type) table := by
  have grows := proper.grows (proper.addNamed named notObject parts) (extends_add table type) rfl
  exact safe_of_ok rfl ⟨grows, has_of_get? ((get?_add table type _).trans (if_pos rfl))⟩

theorem declareObject_yields (proper : table.Proper) (name : String) (params : List String) (span : Span) :
    Yields Proper Extends (fun id larger => larger.IsObject id) (declareObject name params span) table := by
  have added := get?_add table (.object {
    name := name
    params := (List.range params.length).map fun (index : Nat) => table.nextId + 1 + (index : Int)
    body := {}
    span := span }) table.nextId
  rw [show table.nextId = (table.size + 1 : Int) from rfl, if_pos rfl] at added
  have declared := (withTypevars_extends _ params).get? added
  refine safe_of_ok (declareObject_run table name params span) ⟨?_, _, declared⟩
  exact proper.grows (proper.withObject name params span)
    ((extends_add table _).trans (withTypevars_extends _ params)) (table.withObject_sameBuiltIns name params span)

/-- Giving an object a body whose types exist keeps all types and all objects. -/
theorem defineObject_yields {contents : Body} (proper : table.Proper) (isObject : table.IsObject id)
    (has : ∀ slot ∈ contents.slots, table.Has slot.type) :
    Yields Proper Keeps (fun _ _ => True) (defineObject id contents) table := by
  obtain ⟨object, found⟩ := isObject
  have redefines := withBody_redefines proper.instances found contents
  have sameBuiltIns : (table.withBody id object contents).builtIns = table.builtIns :=
    table.builtIns_modifyCell id _
  have keeps : table.Keeps (table.withBody id object contents) := by
    refine ⟨fun other has => redefines.has_eq ▸ has, fun other isObject => ?_⟩
    unfold IsObject
    rw [redefines.types]
    split
    · exact ⟨_, rfl⟩
    · exact isObject
  have proper' : (table.withBody id object contents).Proper :=
    ⟨redefines.regular proper.toRegular has,
      fun id member => keeps.has id (proper.builtIns id (sameBuiltIns ▸ member))⟩
  exact safe_of_ok (defineObject_run found contents) ⟨⟨proper', keeps⟩, trivial⟩

end Making

section Asking

theorem substitute_makes {mapping : Substitution} (proper : table.Proper) (has : table.Has id)
    (values : ∀ pair ∈ mapping, table.Has pair.2) : Makes (substitute mapping id) table := by
  by_cases assigns : mapping = []
  · subst assigns
    exact yields_pure proper has
  · obtain ⟨result, larger, run, wellFormed, unfolds, hasResult, -⟩ :=
      substitute_works proper.toWellFormed assigns values has
    have appends := (substitute_appends mapping id).of_ok run
    have same := (substitute_preserves (fun type _ => intern_sameBuiltIns type) mapping id).of_ok run
    have regular : larger.Regular :=
      ⟨wellFormed, proper.params.unfolds unfolds, proper.instances.appends appends⟩
    exact safe_of_ok run ⟨proper.grows regular unfolds.extends_ same, hasResult⟩

theorem body_yields (proper : table.Proper) (has : table.Has id) :
    Yields Proper Extends (fun body larger => ∀ slot ∈ body.slots, larger.Has slot.type) (body id) table := by
  obtain ⟨type, found⟩ := has.exists
  by_cases hasBody : (∃ object, type = .object object) ∨ ∃ head args, type = .applied head args
  · obtain ⟨result, larger, run, -, unfolds, holds⟩ := body_works proper.toWellFormed found hasBody
    have regular := ((body_unrolls id).of_ok run proper.toRegular).1
    exact safe_of_ok run ⟨proper.grows regular unfolds.extends_ ((body_sameBuiltIns id).of_ok run), holds.2⟩
  · unfold body
    refine Safe.after (fetch_run found) ?_
    cases type with
    | object object => exact absurd (.inl ⟨object, rfl⟩) hasBody
    | applied head args => exact absurd (.inr ⟨head, args, rfl⟩) hasBody
    | _ => exact yields_pure proper (by simp [Body.slots])

theorem constituents_yields (proper : table.Proper) (has : table.Has id) :
    Yields Proper Extends (fun slots larger => ∀ slot ∈ slots, larger.Has slot.type) (constituents id) table := by
  obtain ⟨type, found⟩ := has.exists
  have parts := proper.earlier id type found
  have lifted : Yields Proper Extends (fun slots larger => ∀ slot ∈ slots, larger.Has slot.type)
      (do return (← body id).slots : TableM (List Slot)) table :=
    (body_yields proper has).bind fun _ _ onwards _ inside => yields_pure onwards inside
  unfold constituents
  refine Yields.read (fetch_run found) ?_
  cases type with
  | object object => exact lifted
  | applied head args => exact lifted
  | distinct name underlying span =>
      refine yields_pure proper ?_
      simpa using (parts underlying (by simp [TypeDef.parts])).1
  | array length element =>
      refine yields_pure proper ?_
      simpa using (parts element (by simp [TypeDef.parts])).1
  | tuple elements =>
      refine yields_pure proper fun slot member => ?_
      obtain ⟨⟨element, index⟩, inside, rfl⟩ := List.mem_map.mp member
      exact (parts element (List.fst_mem_of_mem_zipIdx inside)).1
  | wrap wrapper inner =>
      have hasInner := (parts inner (by simp [TypeDef.parts])).1
      cases wrapper <;> exact yields_pure proper (by simpa using hasInner)
  | _ => exact yields_pure proper (by simp)

theorem nesting_yields (proper : table.Proper) (has : table.Has id) :
    Yields Proper Extends (fun _ _ => True) (nesting id) table := by
  obtain ⟨larger, run, -, unfolds⟩ := nesting_works proper.toWellFormed has
  have regular := ((nesting_unrolls id).of_ok run proper.toRegular).1
  have same := (nesting_sameBuiltIns id).of_ok run
  exact safe_of_ok run ⟨proper.grows regular unfolds.extends_ same, trivial⟩

theorem fieldTypeFrom_yields (name : String) (fuel : Nat) (seen : List TypeId) (proper : table.Proper)
    (has : table.Has id) :
    Yields Proper Extends (fun found larger => ∀ type ∈ found, larger.Has type)
      (fieldTypeFrom name fuel seen id) table := by
  induction fuel generalizing seen id table with
  | zero => exact yields_exhausted
  | succ fuel ih =>
      unfold fieldTypeFrom
      by_cases before : id ∈ seen
      · rw [if_pos before]
        exact yields_pure proper (by simp)
      · rw [if_neg before]
        apply (body_yields proper has).bind
        intro body larger onwards _ inside
        split
        · rename_i field isField
          refine yields_pure onwards fun type member => ?_
          obtain rfl := Option.mem_some.mp member
          apply inside ⟨.field field.name, field.type⟩
          exact List.mem_append_right _ (List.mem_map_of_mem (List.mem_of_find?_eq_some isField))
        · rename_i base _ isBase
          have hasBase : larger.Has base := inside ⟨.base, base⟩ (by simp [Body.slots, isBase])
          exact ih (id :: seen) onwards hasBase
        · exact yields_pure onwards (by simp)

end Asking
end TableM

namespace TypeTable

variable {table : TypeTable} {id : TypeId}

section Signatures

theorem parts_of_pointee? {type : TypeDef} {inner : TypeId} (isPointee : type.pointee? = some inner) :
    inner ∈ type.parts := by
  cases type with
  | wrap wrapper other => cases wrapper <;> simp_all [TypeDef.pointee?, TypeDef.parts]
  | _ => cases isPointee

theorem WellFormed.part (wellFormed : table.WellFormed) {id part : Int} {type : TypeDef}
    (found : table.get? id = some type) (member : part ∈ type.parts) : table.Has part ∧ part < id :=
  wellFormed.earlier id type found part member

theorem valueTypeWithin_answers (wellFormed : table.WellFormed) {depth : Nat} {id : Int} (has : table.Has id)
    (deep : id.toNat ≤ depth) : ∃ value, table.valueTypeWithin depth id = .ok value ∧ table.Has value := by
  induction depth generalizing id with
  | zero => exact absurd deep (Nat.not_le_of_lt has.toNat_pos)
  | succ depth ih =>
      obtain ⟨type, found⟩ := has.exists
      have positive := (range_of_get? found).1
      unfold valueTypeWithin
      rw [get_eq_ok.mpr found]
      cases isPointee : type.pointee? with
      | none => exact ⟨id, by simp [bind, Except.bind, isPointee, pure, Except.pure], has⟩
      | some inner =>
          obtain ⟨hasInner, below⟩ := wellFormed.part found (parts_of_pointee? isPointee)
          obtain ⟨value, found, hasValue⟩ := ih hasInner (by omega)
          exact ⟨value, by simp [bind, Except.bind, isPointee, found], hasValue⟩

/-- The value behind references, pointers and parameter modes is found. -/
theorem valueType_answers (wellFormed : table.WellFormed) (has : table.Has id) :
    ∃ value, table.valueType id = .ok value ∧ table.Has value :=
  valueTypeWithin_answers wellFormed has has.toNat_le

/-- What type variables stand for exists. -/
def Assigns (table : TypeTable) (mapping : Substitution) : Prop :=
  ∀ pair ∈ mapping, table.Has pair.2

/-- Matching is carried on through a list when it is for each item. -/
theorem foldlM_answers {Item : Type} {items : List Item} {found : Substitution}
    {matchItem : Substitution → Item → Except Fault Substitution}
    (each : ∀ item ∈ items, ∀ found, table.Assigns found →
      ∃ mapping, matchItem found item = .ok mapping ∧ table.Assigns mapping)
    (assigns : table.Assigns found) :
    ∃ mapping, items.foldlM matchItem found = .ok mapping ∧ table.Assigns mapping := by
  induction items generalizing found with
  | nil => exact ⟨found, rfl, assigns⟩
  | cons item items ih =>
      obtain ⟨middle, first, between⟩ := each item List.mem_cons_self found assigns
      obtain ⟨mapping, rest, last⟩ := ih (fun other member => each other (List.mem_cons_of_mem item member)) between
      exact ⟨mapping, by rw [List.foldlM_cons, first]; exact rest, last⟩

theorem exists_typevar {type : TypeDef} (isTypevar : type.kind = .typevar) : ∃ name, type = .typevar name := by
  cases type with
  | typevar name => exact ⟨name, rfl⟩
  | _ => cases isTypevar

/-- A type variable is bound to what it is first matched with. -/
theorem matchWithin_typevar {param arg : TypeId} {name : String} (isParam : table.get? param = some (.typevar name))
    (depth : Nat) (found : Substitution) :
    table.matchWithin (depth + 1) param arg found =
      .ok (if (found.lookup param).isSome then found else found ++ [(param, arg)]) := by
  rw [matchWithin, get_eq_ok.mpr isParam]
  dsimp only [bind, Except.bind]
  split <;> rfl

/-- A type that is no variable is matched part by part. -/
theorem matchWithin_parts {param arg : TypeId} {type argType : TypeDef} (isParam : table.get? param = some type)
    (isArg : table.get? arg = some argType) (constant : type.kind ≠ .typevar) (depth : Nat) (found : Substitution) :
    table.matchWithin (depth + 1) param arg found =
      if type.isParamMode && !argType.isParamMode then
        match type.pointee? with
        | some inner => table.matchWithin depth inner arg found
        | none => .ok found
      else if type.corresponds argType then
        (type.parts.zip argType.parts).foldlM
          (fun found (param, arg) => table.matchWithin depth param arg found) found
      else
        .ok found := by
  rw [matchWithin, get_eq_ok.mpr isParam]
  cases type with
  | typevar name => exact absurd rfl constant
  | _ =>
      dsimp only [bind, Except.bind]
      rw [get_eq_ok.mpr isArg]
      rfl

theorem matchWithin_answers (wellFormed : table.WellFormed) {depth : Nat} {param : Int} {arg : TypeId}
    {found : Substitution} (has : table.Has param) (hasArg : table.Has arg) (deep : param.toNat ≤ depth)
    (assigns : table.Assigns found) :
    ∃ mapping, table.matchWithin depth param arg found = .ok mapping ∧ table.Assigns mapping := by
  induction depth generalizing param arg found with
  | zero =>
      obtain ⟨type, isParam⟩ := has.exists
      have := (range_of_get? isParam).1
      omega
  | succ depth ih =>
      obtain ⟨type, isParam⟩ := has.exists
      obtain ⟨argType, isArg⟩ := hasArg.exists
      have positive := (range_of_get? isParam).1
      by_cases constant : type.kind = .typevar
      · obtain ⟨name, rfl⟩ := exists_typevar constant
        rw [matchWithin_typevar isParam]
        split
        · exact ⟨found, rfl, assigns⟩
        · exact ⟨found ++ [(param, arg)], rfl, List.forall_mem_append.mpr ⟨assigns, by simpa using hasArg⟩⟩
      · rw [matchWithin_parts isParam isArg constant]
        split
        · split
          · rename_i inner isPointee
            obtain ⟨hasInner, below⟩ := wellFormed.part isParam (parts_of_pointee? isPointee)
            exact ih hasInner hasArg (by omega) assigns
          · exact ⟨found, rfl, assigns⟩
        · split
          · refine foldlM_answers (fun pair member found assigns => ?_) assigns
            obtain ⟨isPart, isOther⟩ := List.of_mem_zip member
            obtain ⟨hasPart, below⟩ := wellFormed.part isParam isPart
            exact ih hasPart (wellFormed.part isArg isOther).1 (by omega) assigns
          · exact ⟨found, rfl, assigns⟩

/-- The types of arguments are matched with those of parameters. -/
theorem matchArguments_answers (wellFormed : table.WellFormed) {params args : List TypeId}
    (has : ∀ param ∈ params, table.Has param) (hasArgs : ∀ arg ∈ args, table.Has arg) :
    ∃ mapping, table.matchArguments params args = .ok mapping ∧ table.Assigns mapping := by
  refine foldlM_answers (fun pair member found assigns => ?_) (by simp [Assigns])
  obtain ⟨isParam, isArg⟩ := List.of_mem_zip member
  have hasParam := has pair.1 isParam
  exact matchWithin_answers wellFormed hasParam (hasArgs pair.2 isArg) hasParam.toNat_le assigns

end Signatures
end TypeTable
end LifecycleHooks

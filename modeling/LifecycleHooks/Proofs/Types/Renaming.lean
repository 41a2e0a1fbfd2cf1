import LifecycleHooks.Proofs.Types.Labels
import Mathlib.Data.Set.Function

/-!
# Tables that differ by their ids

A declaration tells more about a type than what it is called: the body of an object, and the
type that a distinct type wraps.  Two tables whose types are called the same and whose declared
types are told the same are one table with two numberings.
-/

namespace LifecycleHooks

/-- What a declaration tells about a type besides its name. -/
inductive Detail where
  | body (fields : List (String × Meaning)) (base : Option Meaning)
  | underlying (meaning : Meaning)

/-- What the definition of a declared type tells about it. -/
def TypeDef.detail (label : TypeId → Meaning) : TypeDef → Option Detail
  | .object declared => some <| .body (declared.body.fields.map fun field => (field.name, label field.type))
      (declared.body.base.map label)
  | .distinct _ underlying _ => some (.underlying (label underlying))
  | _ => none

/-- The same definition over types that have other ids. -/
def TypeDef.rename (rename : TypeId → TypeId) : TypeDef → TypeDef
  | .object declared => .object { declared with
      params := declared.params.map rename
      body := {
        fields := declared.body.fields.map fun field => { field with type := rename field.type }
        base := declared.body.base.map rename } }
  | .distinct name underlying span => .distinct name (rename underlying) span
  | .applied head args => .applied (rename head) (args.map rename)
  | .array length element => .array length (rename element)
  | .tuple elements => .tuple (elements.map rename)
  | .wrap wrapper inner => .wrap wrapper (rename inner)
  | .scalar name => .scalar name
  | .void => .void
  | .unknown => .unknown
  | .typevar name => .typevar name

namespace TypeTable

variable {table larger other : TypeTable} {label further : TypeId → Meaning} {made : List Meaning}

/-- The type that is called so is what a declaration tells. -/
def Tells (table : TypeTable) (label : TypeId → Meaning) (symbol : Symbol) (detail : Detail) : Prop :=
  ∃ id type, table.get? id = some type ∧ label id = .named symbol ∧ type.detail label = some detail

theorem Regular.has_field (regular : table.Regular) {id : TypeId} {object : ObjectType}
    (found : table.get? id = some (.object object)) : ∀ field ∈ object.body.fields, table.Has field.type := by
  intro field member
  exact regular.bodies id object found ⟨.field field.name, field.type⟩
    (List.mem_append_right _ (List.mem_map.mpr ⟨field, member, rfl⟩))

theorem Regular.has_base (regular : table.Regular) {id : TypeId} {object : ObjectType}
    (found : table.get? id = some (.object object)) : ∀ base ∈ object.body.base, table.Has base := by
  intro base isBase
  exact regular.bodies id object found ⟨.base, base⟩
    (List.mem_append_left _ (List.mem_map.mpr ⟨base, Option.mem_toList.mpr isBase, rfl⟩))

theorem Labelled.detail_eq (labelled : table.Labelled label) {id : TypeId} {type : TypeDef}
    (found : table.get? id = some type) (agree : ∀ id, table.Has id → further id = label id) :
    type.detail further = type.detail label := by
  cases type with
  | object declared =>
      have fields : declared.body.fields.map (fun field => (field.name, further field.type)) =
          declared.body.fields.map fun field => (field.name, label field.type) :=
        List.map_congr_left fun field member => by rw [agree field.type (labelled.has_field found field member)]
      have base : declared.body.base.map further = declared.body.base.map label :=
        Option.map_congr fun base isBase => agree base (labelled.has_base found base isBase)
      rw [TypeDef.detail, fields, base, TypeDef.detail]
  | distinct name underlying span =>
      have has := (labelled.earlier id _ found underlying (by simp [TypeDef.parts])).1
      rw [TypeDef.detail, agree underlying has, TypeDef.detail]
  | _ => rfl

theorem Tells.names {symbol : Symbol} {detail : Detail} (tells : table.Tells label symbol detail)
    (labelled : table.Labelled label) (names : table.Names label larger further made) :
    larger.Tells further symbol detail := by
  obtain ⟨id, type, found, called, told⟩ := tells
  exact ⟨id, type, names.extends_.get? found, (names.agree id (has_of_get? found)).trans called,
    (labelled.detail_eq found names.agree).trans told⟩

/-- The types of one table are those of the other one under other ids. -/
structure Renames (table other : TypeTable) (rename : TypeId → TypeId) : Prop where
  bijective : Set.BijOn rename {id | table.Has id} {id | other.Has id}
  types : ∀ id type, table.get? id = some type → other.get? (rename id) = some (type.rename rename)

section Renaming

variable {rename : TypeId → TypeId} {id : TypeId} {type second : TypeDef}

/-- Types that exist in both tables and are called the same have ids that correspond. -/
def Corresponds (table : TypeTable) (label : TypeId → Meaning) (other : TypeTable) (further : TypeId → Meaning)
    (rename : TypeId → TypeId) : Prop :=
  ∀ id own, table.Has id → other.Has own → further own = label id → own = rename id

theorem Corresponds.map_eq (corresponds : table.Corresponds label other further rename) {ids own : List TypeId}
    (has : ∀ id ∈ ids, table.Has id) (hasOwn : ∀ id ∈ own, other.Has id) (same : own.map further = ids.map label) :
    own = ids.map rename := by
  induction ids generalizing own with
  | nil => exact List.map_eq_nil_iff.mp same
  | cons id ids ih =>
      obtain ⟨hasHere, hasOthers⟩ := List.forall_mem_cons.mp has
      obtain ⟨first, rest, rfl, here, behind⟩ := List.map_eq_cons_iff.mp same
      obtain ⟨hasFirst, hasRest⟩ := List.forall_mem_cons.mp hasOwn
      rw [List.map_cons, corresponds id first hasHere hasFirst here, ih hasOthers hasRest behind]

theorem Corresponds.fields_eq (corresponds : table.Corresponds label other further rename) {fields own : List Field}
    (has : ∀ field ∈ fields, table.Has field.type) (hasOwn : ∀ field ∈ own, other.Has field.type)
    (same : own.map (fun field => (field.name, further field.type)) =
      fields.map fun field => (field.name, label field.type)) :
    own = fields.map fun field => { field with type := rename field.type } := by
  induction fields generalizing own with
  | nil => exact List.map_eq_nil_iff.mp same
  | cons field fields ih =>
      obtain ⟨hasHere, hasOthers⟩ := List.forall_mem_cons.mp has
      obtain ⟨first, rest, rfl, here, behind⟩ := List.map_eq_cons_iff.mp same
      obtain ⟨hasFirst, hasRest⟩ := List.forall_mem_cons.mp hasOwn
      obtain ⟨named, typed⟩ := Prod.mk.inj here
      have type := corresponds field.type first.type hasHere hasFirst typed
      rw [List.map_cons, ih hasOthers hasRest behind, ← named, ← type]

theorem Corresponds.base_eq (corresponds : table.Corresponds label other further rename) {base own : Option TypeId}
    (has : ∀ id ∈ base, table.Has id) (hasOwn : ∀ id ∈ own, other.Has id)
    (same : own.map further = base.map label) : own = base.map rename := by
  cases base with
  | none => exact Option.map_eq_none_iff.mp same
  | some id =>
      obtain ⟨first, rfl, here⟩ := Option.map_eq_some_iff.mp same
      exact congrArg some (corresponds id first (has id rfl) (hasOwn first rfl) here)

/-- Types that are called the same and told the same are the same but for their ids. -/
theorem Corresponds.eq_rename (corresponds : table.Corresponds label other further rename)
    (labelled : table.Labelled label) (alike : other.Labelled further) {own : TypeId}
    (found : table.get? id = some type) (foundOwn : other.get? own = some second) (same : further own = label id)
    (detail : second.detail further = type.detail label) : second = type.rename rename := by
  have described := labelled.describes id type found
  have describedOwn := alike.describes own second foundOwn
  rw [same] at describedOwn
  have outline := describedOwn.outline.trans described.outline.symm
  have ingredients : second.ingredients = type.ingredients.map rename :=
    corresponds.map_eq (labelled.has_ingredient found) (alike.has_ingredient foundOwn)
      (describedOwn.ingredients.trans described.ingredients.symm)
  cases type with
  | object declared =>
      cases second with
      | object own =>
          obtain ⟨named, placed⟩ := Outline.object.inj outline
          obtain ⟨fields, base⟩ := Detail.body.inj (Option.some.inj detail)
          have sameFields := corresponds.fields_eq (labelled.has_field found) (alike.has_field foundOwn) fields
          have sameBase := corresponds.base_eq (labelled.has_base found) (alike.has_base foundOwn) base
          obtain ⟨name, params, ⟨fields, base⟩, span⟩ := own
          dsimp only at named placed sameFields sameBase
          subst named placed sameFields sameBase
          exact congrArg _ (congrArg (fun params => ObjectType.mk _ params _ _) ingredients)
      | _ => cases outline
  | distinct name underlying span =>
      cases second with
      | distinct _ own _ =>
          obtain ⟨rfl, rfl⟩ := Outline.distinct.inj outline
          have has := (labelled.earlier id _ found underlying (by simp [TypeDef.parts])).1
          have hasOwn := (alike.earlier _ _ foundOwn own (by simp [TypeDef.parts])).1
          rw [corresponds underlying own has hasOwn (Detail.underlying.inj (Option.some.inj detail)), TypeDef.rename]
      | _ => cases outline
  | scalar | void | unknown | typevar =>
      cases second <;> cases outline
      rfl
  | _ =>
      refine TypeDef.eq_of_ingredients ?_ outline ingredients
      cases second <;> first | rfl | cases outline

/-- Tables whose types are called the same and told the same are one table with two numberings. -/
theorem Labelled.renames (labelled : table.Labelled label) (alike : other.Labelled further)
    (meanings : table.meanings label = other.meanings further)
    (details : ∀ id own type second, table.get? id = some type → other.get? own = some second →
      further own = label id → second.detail further = type.detail label) :
    ∃ rename, table.Renames other rename ∧ ∀ id, table.Has id → further (rename id) = label id := by
  let rename : TypeId → TypeId := fun id => Function.invFunOn further {own | other.Has own} (label id)
  have answered (id : TypeId) (has : table.Has id) : ∃ own ∈ {own | other.Has own}, further own = label id := by
    have member : label id ∈ other.meanings further := meanings ▸ ⟨id, has, rfl⟩
    exact member
  have has (id : TypeId) (has : table.Has id) : other.Has (rename id) := Function.invFunOn_mem (answered id has)
  have called (id : TypeId) (has : table.Has id) : further (rename id) = label id :=
    Function.invFunOn_eq (answered id has)
  have corresponds : table.Corresponds label other further rename := fun id own hasId hasOwn same =>
    alike.distinct own (rename id) hasOwn (has id hasId) (same.trans (called id hasId).symm)
  refine ⟨rename, ⟨⟨has, fun id hasId own hasOwn same => ?_, fun own hasOwn => ?_⟩, fun id type found => ?_⟩, called⟩
  · refine labelled.distinct id own hasId hasOwn ?_
    rw [← called id hasId, ← called own hasOwn, same]
  · have member : further own ∈ table.meanings label := meanings ▸ ⟨own, hasOwn, rfl⟩
    obtain ⟨id, hasId, same⟩ := member
    exact ⟨id, hasId, (corresponds id own hasId hasOwn same.symm).symm⟩
  · have hasId := has_of_get? found
    obtain ⟨second, foundOwn⟩ := (has id hasId).exists
    rw [foundOwn, corresponds.eq_rename labelled alike found foundOwn (called id hasId)
      (details id _ type second found foundOwn (called id hasId))]

end Renaming

end TypeTable
end LifecycleHooks

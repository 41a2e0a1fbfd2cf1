import LifecycleHooks.Proofs.Types.Canonical
import LifecycleHooks.Proofs.Types.Making

/-!
# What is added to a table

A table gets types of a few sorts only: built-in types, objects without a body and type variables
when a program is declared, distinct types when they are spelled, and structural types whenever
they are asked for.  Giving an object a body changes that object alone.
-/

namespace LifecycleHooks

open Attempt

namespace TypeTable

variable {table larger : TypeTable} {type : TypeDef}

/-- No types of a sort are made. -/
def AddsNone (such : TypeDef → Prop) (table larger : TypeTable) : Prop :=
  ∀ id type, such type → larger.get? id = some type → table.get? id = some type

instance (such : TypeDef → Prop) : IsPreorder TypeTable (AddsNone such) where
  refl _ _ _ _ found := found
  trans _ _ _ first second id type isSuch found := first id type isSuch (second id type isSuch found)

theorem addsNone_of_get? {such : TypeDef → Prop} (same : ∀ id, larger.get? id = table.get? id) :
    AddsNone such table larger :=
  fun id _ _ found => (same id).symm.trans found

theorem addsNone_add {such : TypeDef → Prop} (table : TypeTable) (other : ¬ such type) :
    AddsNone such table (table.add type).2 := by
  intro id made isSuch found
  rw [get?_add] at found
  split at found
  · obtain rfl := Option.some.inj found
    exact absurd isSuch other
  · exact found

end TypeTable

namespace TableM

open TypeTable

section Adding

variable {such : TypeDef → Prop}

theorem intern_addsNone {type : TypeDef} (other : ¬ such type) : (intern type).Preserves (AddsNone such) := by
  refine leads_get.bind fun table => ?_
  split
  · exact leads_pure _
  · exact fun table => table.addsNone_add other

theorem builtIn_addsNone {known : TypeTable → Option TypeId} {remember : TypeId → TypeTable → TypeTable}
    {type : TypeDef} (isBuiltIn : IsBuiltIn known remember type) (other : ¬ such type) :
    (builtIn known remember type).Preserves (AddsNone such) := by
  refine leads_get.bind fun table => ?_
  split
  · exact leads_pure _
  · have adds : (add type).Preserves (AddsNone such) := fun table => table.addsNone_add other
    refine adds.bind fun id => (leads_modify fun table => ?_).bind fun _ => leads_pure _
    exact addsNone_of_get? fun other => by simp only [get?, cell?, isBuiltIn.sameCells]

theorem body_addsNone (others : ∀ type, type.isStructural = true → ¬ such type) (id : TypeId) :
    (body id).Preserves (AddsNone such) := by
  refine body_preserves (fun type structural => intern_addsNone (others type structural)) (fun table id body => ?_) id
  refine addsNone_of_get? fun other => table.get?_modifyCell ?_ id other
  exact fun _ => rfl

theorem declareObject_addsNone (noObject : ∀ object, object.body = {} → ¬ such (.object object))
    (noTypevar : ∀ name, ¬ such (.typevar name)) (name : String) (params : List String) (span : Span) :
    (declareObject name params span).Preserves (AddsNone such) := by
  intro table
  rw [declareObject_run]
  intro id type isSuch found
  obtain ⟨_, rfl⟩ | before := withTypevars_type found
  · exact absurd isSuch (noTypevar _)
  · exact table.addsNone_add (noObject _ rfl) id type isSuch before

end Adding

/-- Giving an object a body is all that a definition does. -/
theorem defineObject_preserves {relation : TypeTable → TypeTable → Prop} [IsPreorder TypeTable relation] {id : TypeId}
    {contents : Body} (defines : ∀ table object, table.get? id = some (.object object) →
      relation table (table.withBody id object contents)) : (defineObject id contents).Preserves relation := by
  refine preserves_iff.mpr fun table => ?_
  cases found : table.get? id with
  | none =>
      have unknown : ¬ table.Has id := by simp [Has, found]
      unfold defineObject
      rw [fetch_bind_unknown unknown]
      exact refl_of relation table
  | some type =>
      by_cases isObject : ∃ object, type = .object object
      · obtain ⟨object, rfl⟩ := isObject
        rw [finish_of_ok (defineObject_run found contents)]
        exact defines table object found
      · rw [defineObject_unchanged found fun object same => isObject ⟨object, same⟩]
        exact refl_of relation table

end TableM
end LifecycleHooks

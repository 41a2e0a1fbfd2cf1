import LifecycleHooks.Proofs.Budget
import LifecycleHooks.Proofs.Types.Unfolding

/-!
# Regular type tables

In a regular table, the type parameters of an object are distinct type variables, and a
body is remembered for nothing but an instance.  Questions about the types of a regular
table leave it regular and bring no types of new shapes.
-/

namespace LifecycleHooks
namespace TypeTable

open Attempt

/-- Bodies are remembered for instances alone. -/
def KeepsInstances (table : TypeTable) : Prop :=
  ∀ id cell, table.cell? id = some cell → cell.body ≠ none → ∃ head args, cell.type = .applied head args

/-- The type parameters of an object are distinct type variables. -/
def ParamsDistinct (table : TypeTable) : Prop :=
  ∀ id object, table.get? id = some (.object object) →
    object.params.Nodup ∧ ∀ param ∈ object.params, ∃ name, table.get? param = some (.typevar name)

/-- What holds of every table that is built. -/
structure Regular (table : TypeTable) : Prop extends WellFormed table where
  params : table.ParamsDistinct
  instances : table.KeepsInstances

variable {table larger : TypeTable} {id : TypeId} {type : TypeDef}

theorem Regular.paramsKnown (regular : table.Regular) : table.ParamsKnown := by
  intro id object found param member
  obtain ⟨name, isTypevar⟩ := (regular.params id object found).2 param member
  exact has_of_get? isTypevar

section Growing

theorem KeepsInstances.add (keeps : table.KeepsInstances) (type : TypeDef) :
    (table.add type).2.KeepsInstances := by
  intro id cell found remembered
  rw [cell?_add] at found
  split at found
  · obtain rfl := Option.some.inj found
    exact absurd rfl remembered
  · exact keeps id cell found remembered

theorem KeepsInstances.appends (keeps : table.KeepsInstances) (appends : table.Appends larger) :
    larger.KeepsInstances := by
  intro id cell found remembered
  cases before : table.cell? id with
  | none => exact absurd (appends.isNewCell found before).2.2 remembered
  | some old =>
      obtain rfl := Option.some.inj ((appends.cell? before).symm.trans found)
      exact keeps id old before remembered

theorem KeepsInstances.modifyCell {change : Cell → Cell} (keeps : table.KeepsInstances)
    (sameType : ∀ cell, (change cell).type = cell.type)
    (allowed : ∀ cell, table.cell? id = some cell →
      (change cell).body = cell.body ∨ ∃ head args, cell.type = .applied head args) :
    (table.modifyCell id change).KeepsInstances := by
  intro other cell found remembered
  rw [cell?_modifyCell] at found
  split at found
  · obtain ⟨old, atOld, rfl⟩ := Option.map_eq_some_iff.mp found
    rw [sameType]
    cases allowed old atOld with
    | inl same => exact keeps id old atOld (same ▸ remembered)
    | inr isApplied => exact isApplied
  · exact keeps other cell found remembered

theorem ParamsDistinct.add (distinct : table.ParamsDistinct) (notObject : ∀ object, type ≠ .object object) :
    (table.add type).2.ParamsDistinct := by
  intro id object found
  rw [get?_add] at found
  split at found
  · exact absurd (Option.some.inj found) (notObject object)
  · obtain ⟨nodup, typevars⟩ := distinct id object found
    refine ⟨nodup, fun param member => ?_⟩
    obtain ⟨name, isTypevar⟩ := typevars param member
    exact ⟨name, (extends_add table type).get? isTypevar⟩

theorem ParamsDistinct.unfolds (distinct : table.ParamsDistinct) (unfolds : table.Unfolds larger) :
    larger.ParamsDistinct := by
  intro id object found
  have known : table.declared? id = some (.object object) := by
    rw [← unfolds.declared?_eq]
    exact declared?_eq_some.mpr ⟨found, rfl⟩
  obtain ⟨nodup, typevars⟩ := distinct id object (declared?_eq_some.mp known).1
  refine ⟨nodup, fun param member => ?_⟩
  obtain ⟨name, isTypevar⟩ := typevars param member
  exact ⟨name, unfolds.extends_.get? isTypevar⟩

/-- A type other than an object may be added to a regular table when its parts are known. -/
theorem Regular.add (regular : table.Regular) (parts : ∀ part ∈ type.parts, table.Has part)
    (notObject : ∀ object, type ≠ .object object)
    (applied : ∀ head args, type = .applied head args → ∃ object,
      table.get? head = some (.object object) ∧ object.params ≠ [] ∧
        args.length = object.params.length)
    (new : type.isStructural = true → ∀ id, table.get? id ≠ some type) :
    (table.add type).2.Regular where
  toWellFormed := regular.toWellFormed.add parts applied
    (fun object isObject => absurd isObject (notObject object)) new
  params := regular.params.add notObject
  instances := regular.instances.add type

/-- A name that is declared by itself. -/
theorem Regular.addNamed (regular : table.Regular) (named : type.isStructural = false)
    (notObject : ∀ object, type ≠ .object object) (parts : ∀ part ∈ type.parts, table.Has part) :
    (table.add type).2.Regular := by
  refine regular.add parts notObject (fun head args isApplied => ?_) fun structural => ?_
  · subst isApplied
    cases named
  · rw [named] at structural
    cases structural

end Growing
end TypeTable

namespace TableM

open TypeTable Attempt

variable {table : TypeTable} {id : TypeId}

section Asking

theorem fetch_unknown (unknown : ¬ table.Has id) : fetch id table = .error (.unknownId id) table := by
  have missing : table.get? id = none := by simpa [Has] using unknown
  unfold fetch
  rw [get_bind_run, TypeTable.get, missing]
  rfl

theorem fetch_bind_unknown {Result : Type} (unknown : ¬ table.Has id) (next : TypeDef → TableM Result) :
    finish (fetch id >>= next) table = table := by
  unfold finish
  rw [bind_run, fetch_unknown unknown]

theorem body_keepsInstances (id : TypeId) : (body id).Preserves (Lasts KeepsInstances) := by
  have fetches (id : TypeId) : (fetch id).Preserves (Lasts KeepsInstances) := fetch_preserves id
  refine preserves_iff.mpr fun table keeps => ?_
  refine finish_bind (fun fault middle run => (fetches id).of_error run keeps)
    fun type middle run => ?_
  obtain ⟨isType, unchanged⟩ := fetch_eq_ok.mp run
  subst middle
  cases type with
  | applied head args =>
      refine finish_bind (fun fault middle run => by cases run) fun same middle run => ?_
      obtain ⟨rfl, rfl⟩ := EStateM.Result.ok.inj run
      split
      · exact keeps
      · refine finish_bind (fun fault middle run => (fetches head).of_error run keeps)
          fun generic middle run => ?_
        obtain ⟨isHead, unchanged⟩ := fetch_eq_ok.mp run
        subst middle
        cases generic with
        | object object =>
            refine finish_bind (fun fault middle run => ?_) fun result middle run => ?_
            · exact keeps.appends ((substituteBody_appends _ _).of_error run)
            · have appends := (substituteBody_appends _ _).of_ok run
              refine (keeps.appends appends).modifyCell (fun _ => rfl) fun cell atCell => .inr ?_
              have sameType := appends.extends_.get? isType
              rw [get?, atCell, Option.map_some] at sameType
              exact ⟨head, args, Option.some.inj sameType⟩
        | _ => exact keeps
  | _ => exact keeps

theorem nesting_keepsInstances (id : TypeId) : (nesting id).Preserves (Lasts KeepsInstances) := by
  refine leads_get.bind fun _ => nestingWithin_preserves ?_ _ id
  intro table id depth keeps
  exact KeepsInstances.modifyCell keeps (fun _ => rfl) fun _ _ => .inl rfl

/-- A table that is regular if another one is, and has no types of new shapes. -/
def Unrolls (table larger : TypeTable) : Prop :=
  table.Regular → larger.Regular ∧ table.Unfolds larger

instance : IsPreorder TypeTable Unrolls where
  refl table regular := ⟨regular, .refl table⟩
  trans _ _ _ first second regular := by
    obtain ⟨middle, before⟩ := first regular
    obtain ⟨later, behind⟩ := second middle
    exact ⟨later, before.trans behind⟩

/-- Questions about the types of a regular table leave it regular. -/
theorem unrolls_of_works {Result : Type} {action : TableM Result} (id : TypeId)
    (keeps : action.Preserves (Lasts KeepsInstances))
    (unknown : ∀ table, ¬ table.Has id → action.finish table = table)
    (works : ∀ table, table.WellFormed → table.Has id → ∃ result larger,
      action table = .ok result larger ∧ larger.WellFormed ∧ table.Unfolds larger) :
    action.Preserves Unrolls := by
  refine preserves_iff.mpr fun table regular => ?_
  by_cases has : table.Has id
  · have kept := keeps.finish table regular.instances
    obtain ⟨result, larger, run, later, unfolds⟩ := works table regular.toWellFormed has
    rw [finish_of_ok run] at kept ⊢
    exact ⟨⟨later, regular.params.unfolds unfolds, kept⟩, unfolds⟩
  · rw [unknown table has]
    exact ⟨regular, .refl table⟩

theorem body_unrolls (id : TypeId) : (body id).Preserves Unrolls := by
  refine unrolls_of_works id (body_keepsInstances id)
    (fun table unknown => fetch_bind_unknown unknown _) fun table wellFormed has => ?_
  obtain ⟨type, found⟩ := has.exists
  by_cases hasBody : (∃ object, type = .object object) ∨ ∃ head args, type = .applied head args
  · obtain ⟨result, larger, run, later, unfolds, _⟩ := body_works wellFormed found hasBody
    exact ⟨result, larger, run, later, unfolds⟩
  · refine ⟨{}, table, ?_, wellFormed, .refl table⟩
    unfold body
    rw [bind_run_of_ok (fetch_run found)]
    cases type <;> simp at hasBody <;> rfl

theorem constituents_unrolls (id : TypeId) : (constituents id).Preserves Unrolls :=
  constituents_preserves (body_unrolls id)

theorem nesting_unrolls (id : TypeId) : (nesting id).Preserves Unrolls := by
  refine unrolls_of_works id (nesting_keepsInstances id) (fun table unknown => ?_)
    fun table wellFormed has => ?_
  · have missing : table.cell? id = none := by
      cases found : table.cell? id with
      | none => rfl
      | some cell => simp [Has, get?, found] at unknown
    have noDepth : (table.cell? id).bind Cell.depth = none := by rw [missing, Option.bind_none]
    unfold nesting finish
    rw [get_bind_run, nestingWithin, get_bind_run, noDepth]
    exact fetch_bind_unknown unknown _
  · obtain ⟨larger, run, later, unfolds⟩ := nesting_works wellFormed has
    exact ⟨_, larger, run, later, unfolds⟩

end Asking
end TableM
end LifecycleHooks

import LifecycleHooks.Proofs.Answers
import LifecycleHooks.Proofs.Types.Building

/-!
# Types made from saturated types

A generic object is no type of values until it gets its arguments.  All other types are
saturated.  Where types have saturated operands only, what is made by substitution of saturated
types has saturated operands again, and is saturated itself.
-/

namespace LifecycleHooks

open Attempt

namespace TypeTable

variable {table larger : TypeTable} {id : TypeId} {type : TypeDef}

/-- A type that is no generic object without its arguments. -/
def IsSaturated (table : TypeTable) (id : TypeId) : Prop :=
  ∃ type, table.get? id = some type ∧ type.typeParams = []

/-- All operands of types are saturated. -/
def Composed (table : TypeTable) : Prop :=
  ∀ id type, table.get? id = some type → ∀ operand ∈ type.operands, table.IsSaturated operand

/-- All that the body of an object holds is saturated. -/
def HoldsSaturated (table : TypeTable) : Prop :=
  ∀ id object, table.get? id = some (.object object) → ∀ slot ∈ object.body.slots, table.IsSaturated slot.type

theorem IsSaturated.has (saturated : table.IsSaturated id) : table.Has id := by
  obtain ⟨type, found, -⟩ := saturated
  exact has_of_get? found

theorem IsSaturated.extends_ (saturated : table.IsSaturated id) (extends_ : table.Extends larger) :
    larger.IsSaturated id := by
  obtain ⟨type, found, noParams⟩ := saturated
  exact ⟨type, extends_.get? found, noParams⟩

theorem typeParams_of_isStructural (structural : type.isStructural = true) : type.typeParams = [] := by
  cases type <;> first | rfl | cases structural

theorem Composed.add (composed : table.Composed) (operands : ∀ operand ∈ type.operands, table.IsSaturated operand) :
    (table.add type).2.Composed := by
  intro id made found operand member
  rw [get?_add] at found
  split at found
  · obtain rfl := Option.some.inj found
    exact (operands operand member).extends_ (extends_add table _)
  · exact (composed id made found operand member).extends_ (extends_add table type)

theorem composed_of_get? (composed : table.Composed) (same : ∀ id, larger.get? id = table.get? id) :
    larger.Composed := by
  intro id type found operand member
  obtain ⟨other, known, noParams⟩ := composed id type ((same id).symm.trans found) operand member
  exact ⟨other, (same operand).trans known, noParams⟩

end TypeTable

namespace TableM

open TypeTable

variable {table : TypeTable} {id : TypeId} {mapping : Substitution}

/-- What runs where all operands are saturated gives a saturated type and leaves it so. -/
def Composes (action : TableM TypeId) (table : TypeTable) : Prop :=
  Gives Composed Extends (fun id larger => larger.IsSaturated id) action table

theorem intern_composes {type : TypeDef} (composed : table.Composed) (structural : type.isStructural = true)
    (operands : ∀ operand ∈ type.operands, table.IsSaturated operand) : Composes (intern type) table := by
  intro id larger run
  have noParams := typeParams_of_isStructural structural
  unfold intern at run
  rw [get_bind_run] at run
  cases found : table.find? type with
  | some known =>
      rw [found] at run
      obtain ⟨rfl, rfl⟩ := EStateM.Result.ok.inj run
      exact ⟨⟨composed, .refl table⟩, type, get?_of_find? found, noParams⟩
  | none =>
      rw [found] at run
      obtain ⟨rfl, rfl⟩ := EStateM.Result.ok.inj run
      exact ⟨⟨composed.add operands, extends_add table type⟩, type, (get?_add table type _).trans (if_pos rfl), noParams⟩

theorem instantiate_composes {head : TypeId} {args : List TypeId} (composed : table.Composed)
    (saturated : ∀ arg ∈ args, table.IsSaturated arg) : Composes (instantiate head args) table := by
  refine Gives.read (fun _ _ run => (fetch_eq_ok.mp run).2) fun type _ => ?_
  refine Gives.read (fun _ _ run => (EStateM.Result.ok.inj run).2.symm) fun _ _ => ?_
  refine Gives.read (fun _ _ run => (ofExcept_eq_ok.mp run).2) fun name _ => ?_
  split
  · exact gives_throw _
  · split
    · exact gives_throw _
    · exact intern_composes composed rfl saturated

/-- Substitution goes through the operands of a type, which are saturated when the type is. -/
theorem substituteWithin_composes (depth : Nat) (composed : table.Composed)
    (values : ∀ pair ∈ mapping, table.IsSaturated pair.2) (saturated : table.IsSaturated id) :
    Composes (substituteWithin mapping depth id) table := by
  induction depth generalizing id table with
  | zero => exact gives_throw _
  | succ depth ih =>
      have lasting {larger : TypeTable} (extends_ : table.Extends larger) :
          ∀ pair ∈ mapping, larger.IsSaturated pair.2 := fun pair member => (values pair member).extends_ extends_
      have each (operands : List TypeId) (saturated : ∀ operand ∈ operands, table.IsSaturated operand) :
          Gives Composed Extends (fun results later => ∀ result ∈ results, later.IsSaturated result)
            (operands.mapM (substituteWithin mapping depth)) table := by
        refine gives_mapM (fun operand member later composed extends_ => ?_)
          (fun _ _ _ extends_ saturated => saturated.extends_ extends_) composed
        exact ih composed (lasting extends_) ((saturated operand member).extends_ extends_)
      unfold substituteWithin
      refine Gives.read (fun _ _ run => (fetch_eq_ok.mp run).2) fun type run => ?_
      have operands := composed id type (fetch_eq_ok.mp run).1
      cases type with
      | typevar name =>
          refine gives_pure composed ?_
          cases assigned : mapping.lookup id with
          | none => exact saturated
          | some value => exact values _ (mem_of_lookup assigned)
      | array length element =>
          apply (ih composed values (operands element (by simp [TypeDef.operands]))).bind
          intro result later composed _ saturated
          exact intern_composes composed rfl (by simpa [TypeDef.operands] using saturated)
      | tuple elements =>
          apply (each elements operands).bind
          exact fun results later composed _ saturated => intern_composes composed rfl saturated
      | wrap wrapper inner =>
          apply (ih composed values (operands inner (by simp [TypeDef.operands]))).bind
          intro result later composed _ saturated
          exact intern_composes composed rfl (by simpa [TypeDef.operands] using saturated)
      | applied head args =>
          apply (each args operands).bind
          exact fun results later composed _ saturated => instantiate_composes composed saturated
      | _ => exact gives_pure composed saturated

theorem substitute_composes (composed : table.Composed) (values : ∀ pair ∈ mapping, table.IsSaturated pair.2)
    (saturated : table.IsSaturated id) : Composes (substitute mapping id) table := by
  unfold substitute
  split
  · exact gives_pure composed saturated
  · refine Gives.read (fun _ _ run => (EStateM.Result.ok.inj run).2.symm) fun _ _ => ?_
    exact substituteWithin_composes _ composed values saturated

theorem substituteBody_composes {body : Body} (composed : table.Composed)
    (values : ∀ pair ∈ mapping, table.IsSaturated pair.2) (saturated : ∀ slot ∈ body.slots, table.IsSaturated slot.type) :
    Gives Composed Extends (fun _ _ => True) (substituteBody mapping body) table := by
  have substitutes {id : TypeId} {later : TypeTable} (composed : later.Composed) (extends_ : table.Extends later)
      (saturated : table.IsSaturated id) : Composes (substitute mapping id) later :=
    substitute_composes composed (fun pair member => (values pair member).extends_ extends_) (saturated.extends_ extends_)
  have each : ∀ field ∈ body.fields, ∀ later, later.Composed → table.Extends later →
      Gives Composed Extends (fun _ _ => True)
        (do return { field with type := ← substitute mapping field.type } : TableM Field) later := by
    intro field member later composed extends_
    have isSlot : ⟨.field field.name, field.type⟩ ∈ body.slots :=
      List.mem_append_right _ (List.mem_map_of_mem member)
    apply (substitutes composed extends_ (saturated _ isSlot)).bind
    exact fun _ _ composed _ _ => gives_pure composed trivial
  apply (gives_mapM each (fun _ _ _ _ _ => trivial) composed).bind
  intro fields later composed extends_ _
  have inBase : Gives Composed Extends (fun _ _ => True) (body.base.mapM (substitute mapping)) later := by
    cases isBase : body.base with
    | none => exact gives_pure composed trivial
    | some base =>
        have isSlot : ⟨.base, base⟩ ∈ body.slots := by simp [Body.slots, isBase]
        apply (substitutes composed extends_ (saturated _ isSlot)).bind
        exact fun _ _ composed _ _ => gives_pure composed trivial
  exact inBase.bind fun _ _ composed _ _ => gives_pure composed trivial

/-- What is worked out for the body of an instance is composed of saturated types. -/
theorem body_composed {result : Body} {larger : TypeTable} (composed : table.Composed)
    (holds : table.HoldsSaturated) (run : body id table = .ok result larger) : larger.Composed := by
  obtain ⟨type, middle, fetched, rest⟩ := bind_eq_ok.mp run
  obtain ⟨found, same⟩ := fetch_eq_ok.mp fetched
  rw [same] at rest
  cases type with
  | applied head args =>
      dsimp only at rest
      rw [get_bind_run] at rest
      cases remembered : (table.cell? id).bind Cell.body with
      | some known =>
          rw [remembered] at rest
          obtain ⟨-, rfl⟩ := EStateM.Result.ok.inj rest
          exact composed
      | none =>
          rw [remembered] at rest
          obtain ⟨generic, middle, fetched, rest⟩ := bind_eq_ok.mp rest
          obtain ⟨isHead, same⟩ := fetch_eq_ok.mp fetched
          rw [same] at rest
          cases generic with
          | object object =>
              obtain ⟨body, later, substituted, rest⟩ := bind_eq_ok.mp rest
              obtain ⟨-, rfl⟩ := EStateM.Result.ok.inj rest
              have values : ∀ pair ∈ object.params.zip args, table.IsSaturated pair.2 := fun pair member =>
                composed id _ found pair.2 (List.of_mem_zip member).2
              have stays := (substituteBody_composes composed values (holds head object isHead) body later substituted).1.1
              refine composed_of_get? stays fun other => later.get?_modifyCell ?_ id other
              exact fun _ => rfl
          | _ =>
              obtain ⟨-, rfl⟩ := EStateM.Result.ok.inj rest
              exact composed
  | _ =>
      obtain ⟨-, rfl⟩ := EStateM.Result.ok.inj rest
      exact composed

end TableM
end LifecycleHooks

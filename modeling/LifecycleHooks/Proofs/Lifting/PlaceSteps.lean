import LifecycleHooks.Proofs.Lifting.EffectiveOperation
import LifecycleHooks.Proofs.Lifting.KeptTables
import LifecycleHooks.Proofs.Lifting.PlainRecursion
import LifecycleHooks.Proofs.Types.Legibility

/-!
# The steps of an operation

Each slot of a type leads to its values by steps of its own.  In a legible table the slots of
a type have no step in common, and neither have those that an operation goes on to: they are
some of the slots, in another order.
-/

namespace LifecycleHooks

open Attempt

/-- The steps that lead to the values of a slot, in index order. -/
def Slot.placeSteps (table : TypeTable) (slot : Slot) : List PlaceStep :=
  match slot.step with
  | .element (some count) => (List.range count.toNat).map .index
  | .element none => [.each]
  | .field name => [.field name]
  | .tupleElement index => [.index index]
  | .pointee => [.pointee]
  | .base | .underlying => [.converted (table.spelling slot.type)]

/-- The value that a step leads to. -/
def PlaceStep.branch (type : TypeId) (place : String) (step : PlaceStep) : Branch :=
  { type := type, place := step.apply place, sequence? := if step = .each then some place else none }

theorem Slot.branches_eq (table : TypeTable) (place : String) (slot : Slot) :
    slot.branches table place = (slot.placeSteps table).map (PlaceStep.branch slot.type place) := by
  obtain ⟨step, type⟩ := slot
  cases step with
  | element count =>
      cases count with
      | none => rfl
      | some count =>
          simp only [Slot.branches, Slot.placeSteps, List.map_map]
          rfl
  | _ => rfl

/-- Slots with plain field names, no two of which have a step in common. -/
structure LegibleSlots (slots : List Slot) : Prop where
  plain : ∀ slot ∈ slots, ∀ name, slot.step = .field name → IsPlain name
  distinct : ∀ table : TypeTable, (slots.flatMap (Slot.placeSteps table)).Nodup

section Slots

variable {slots others : List Slot}

theorem LegibleSlots.sublist (legible : LegibleSlots slots) (some : others.Sublist slots) : LegibleSlots others where
  plain slot member := legible.plain slot (some.subset member)
  distinct table := (legible.distinct table).sublist (some.flatMap _)

theorem LegibleSlots.perm (legible : LegibleSlots slots) (same : others.Perm slots) : LegibleSlots others where
  plain slot member := legible.plain slot (same.subset member)
  distinct table := (same.flatMap_right _).nodup_iff.mpr (legible.distinct table)

theorem orderSteps_perm (kind : OpKind) (slots : List Slot) : (orderSteps kind slots).Perm slots := by
  have parts := List.filter_append_perm Slot.isBase slots
  cases kind with
  | destroy =>
      refine List.Perm.trans ?_ parts
      exact List.perm_append_comm.trans (List.Perm.append_left _ (List.reverse_perm _))
  | assign => exact parts
  | deepCopy => exact parts

theorem legibleSlots_single {slot : Slot} (alone : ∀ name, slot.step ≠ .field name)
    (distinct : ∀ table, (slot.placeSteps table).Nodup) : LegibleSlots [slot] where
  plain := List.forall_mem_singleton.mpr fun name isField => absurd isField (alone name)
  distinct table := by simpa using distinct table

theorem Body.IsLegible.legibleSlots {body : Body} (legible : body.IsLegible) : LegibleSlots body.slots where
  plain slot member name isField := by
    rcases List.mem_append.mp member with isBase | isOwn
    · obtain ⟨base, _, rfl⟩ := List.mem_map.mp isBase
      cases isField
    · obtain ⟨field, isOf, rfl⟩ := List.mem_map.mp isOwn
      obtain rfl := Step.field.inj isField
      exact legible.plain field isOf
  distinct table := by
    have bases : ((body.base.toList.map fun base => (⟨.base, base⟩ : Slot)).flatMap (Slot.placeSteps table)) =
        body.base.toList.map fun base => .converted (table.spelling base) := by
      cases body.base <;> rfl
    have fields : ((body.fields.map fun field => (⟨.field field.name, field.type⟩ : Slot)).flatMap
        (Slot.placeSteps table)) = (body.fields.map Field.name).map .field := by
      rw [List.flatMap_map, List.map_map, List.map_eq_flatMap]
      rfl
    rw [Body.slots, List.flatMap_append, bases, fields]
    refine List.nodup_append.mpr ⟨?_, legible.distinct.map fun _ _ => PlaceStep.field.inj, ?_⟩
    · cases body.base <;> simp
    · intro step isBase other isField same
      obtain ⟨base, _, rfl⟩ := List.mem_map.mp isBase
      obtain ⟨name, _, rfl⟩ := List.mem_map.mp isField
      cases same

end Slots

namespace TableM

open TypeTable

variable {table larger : TypeTable} {id : TypeId}

/-- The constituents of a type of a legible table are told apart by their steps. -/
theorem constituents_legible {slots : List Slot} (legible : table.Legible)
    (run : constituents id table = .ok slots larger) : LegibleSlots slots := by
  obtain ⟨type, middle, fetched, run⟩ := bind_eq_ok.mp run
  obtain ⟨isType, unchanged⟩ := fetch_eq_ok.mp fetched
  subst middle
  have ofBody {slots : List Slot} (run : (do return (← body id).slots : TableM (List Slot)) table = .ok slots larger) :
      LegibleSlots slots := by
    obtain ⟨found, _, asked, run⟩ := bind_eq_ok.mp run
    obtain ⟨rfl, -⟩ := EStateM.Result.ok.inj run
    exact (isLegible_of_body legible asked).legibleSlots
  have none : LegibleSlots [] := ⟨by simp, by simp⟩
  cases type with
  | object declared => exact ofBody run
  | applied head args => exact ofBody run
  | distinct name underlying span =>
      obtain ⟨rfl, -⟩ := EStateM.Result.ok.inj run
      exact legibleSlots_single (by simp) fun table => List.nodup_singleton _
  | array length element =>
      obtain ⟨rfl, -⟩ := EStateM.Result.ok.inj run
      exact legibleSlots_single (by simp) fun table => List.nodup_range.map fun _ _ => PlaceStep.index.inj
  | tuple elements =>
      obtain ⟨rfl, -⟩ := EStateM.Result.ok.inj run
      refine ⟨fun slot member name isField => ?_, fun table => ?_⟩
      · obtain ⟨⟨element, index⟩, _, rfl⟩ := List.mem_map.mp member
        cases isField
      · rw [List.flatMap_map]
        change (elements.zipIdx.flatMap fun entry => [PlaceStep.index entry.2]).Nodup
        have positions : (elements.zipIdx.map Prod.snd).Nodup := by
          rw [List.zipIdx_map_snd, ← List.range_eq_range']
          exact List.nodup_range
        have distinct := positions.map fun _ _ => PlaceStep.index.inj
        rwa [List.map_map, List.map_eq_flatMap] at distinct
  | wrap wrapper inner =>
      cases wrapper <;> obtain ⟨rfl, -⟩ := EStateM.Result.ok.inj run <;>
        exact legibleSlots_single (by simp) fun table => List.nodup_singleton _
  | _ =>
      obtain ⟨rfl, -⟩ := EStateM.Result.ok.inj run
      exact none

end TableM

namespace TypeTable

theorem Legible.spelling {table : TypeTable} (legible : table.Legible) (id : TypeId) : Unopened (table.spelling id) := by
  unfold TypeTable.spelling
  split
  · rename_i spelled
    exact legible.spellWithin spelled
  · decide

/-- The steps of legible slots are legible. -/
theorem Legible.placeSteps {table : TypeTable} (legible : table.Legible) {slots : List Slot}
    (plain : LegibleSlots slots) {slot : Slot} (member : slot ∈ slots) :
    ∀ step ∈ slot.placeSteps table, step.IsLegible := by
  intro step isStep
  unfold Slot.placeSteps at isStep
  split at isStep
  case h_1 =>
    obtain ⟨index, _, rfl⟩ := List.mem_map.mp isStep
    trivial
  case h_3 name isField =>
    obtain rfl := List.mem_singleton.mp isStep
    exact plain.plain slot member name isField
  case h_6 | h_7 =>
    obtain rfl := List.mem_singleton.mp isStep
    exact legible.spelling slot.type
  all_goals
    obtain rfl := List.mem_singleton.mp isStep
    trivial

end TypeTable

namespace Resolver

open ResolveM

variable {hooks : Registry} {kind : OpKind} {resolver final : Resolver} {id : TypeId} {place : String}

/-- Whatever is asked, the table stays legible. -/
theorem legible_leadsQueries (hooks : Registry) :
    LeadsQueries hooks (Tables (Lasts TypeTable.Legible)) (Tables (Lasts TypeTable.Legible)) :=
  tables_leadsQueries TableM.body_legible TableM.nesting_legible hooks

theorem relevantSlots_legible {slots : List Slot} (legible : resolver.table.Legible)
    (run : relevantSlots id kind resolver = .ok slots final) : LegibleSlots slots := by
  obtain ⟨type, middle, fetched, run⟩ := bind_eq_ok.mp run
  obtain ⟨isType, unchanged⟩ := fetch_eq_ok.mp fetched
  subst middle
  split at run
  · obtain ⟨table, asked, -⟩ := onTable_eq_ok.mp run
    exact TableM.constituents_legible legible asked
  · obtain ⟨rfl, -⟩ := EStateM.Result.ok.inj run
    exact ⟨by simp, by simp⟩

/-- The steps of a lifted operation are told apart. -/
theorem Operates.legibleSlots {steps : List Slot} (ready : resolver.Ready hooks) (legible : resolver.table.Legible)
    (operates : resolver.Operates hooks id kind (.lifted steps)) : LegibleSlots steps := by
  obtain ⟨fuel, operation, final, run, isLifted⟩ := operates
  obtain ⟨-, -, -, explained⟩ := resolve_explained ready run
  have stillLegible : final.table.Legible := ((legible_leadsQueries hooks).resolves fuel id kind).of_ok run legible
  rw [isLifted] at explained
  cases explained with
  | lifted clear unbound parts path chosen leftOut =>
      exact ((relevantSlots_legible stillLegible parts).sublist List.filter_sublist).perm (orderSteps_perm kind _)

/-- What an operation does at a value, wherever the value stands: it calls the hook, if there is one,
and goes on by different steps to values of these types. -/
structure Level.Turns (hooks : Registry) (kind : OpKind) (resolver : Resolver) (id : TypeId)
    (hook? : Option HookEntry) (turns : List (TypeId × PlaceStep)) : Prop where
  distinct : (turns.map Prod.snd).Nodup
  legible : ∀ turn ∈ turns, turn.2.IsLegible
  level : ∀ place, Level hooks kind resolver id place (hook?.toList.map fun entry => ⟨place, id, entry⟩)
    (turns.map fun turn => turn.2.branch turn.1 place)

theorem branches_of_slots (table : TypeTable) (place : String) (slots : List Slot) :
    slots.flatMap (Slot.branches table place) =
      (slots.flatMap fun slot => (slot.placeSteps table).map (slot.type, ·)).map
        fun turn => turn.2.branch turn.1 place := by
  rw [List.map_flatMap]
  refine congrArg (slots.flatMap ·) (funext fun slot => ?_)
  rw [slot.branches_eq, List.map_map]
  rfl

theorem steps_of_slots (table : TypeTable) (slots : List Slot) :
    (slots.flatMap fun slot => (slot.placeSteps table).map (slot.type, ·)).map Prod.snd =
      slots.flatMap (Slot.placeSteps table) := by
  rw [List.map_flatMap]
  refine congrArg (slots.flatMap ·) (funext fun slot => ?_)
  rw [List.map_map]
  exact List.map_id _

theorem places_of_branches (table : TypeTable) (place : String) (slots : List Slot) :
    (slots.flatMap (Slot.branches table place)).map Branch.place =
      (slots.flatMap (Slot.placeSteps table)).map (PlaceStep.apply place) := by
  rw [branches_of_slots, ← steps_of_slots, List.map_map, List.map_map]
  rfl

theorem Level.turns {calls : List HookCall} {branches : List Branch} (ready : resolver.Ready hooks)
    (legible : resolver.table.Legible) (level : Level hooks kind resolver id place calls branches) :
    ∃ hook? turns, Level.Turns hooks kind resolver id hook? turns ∧
      calls = (hook?.toList.map fun entry => ⟨place, id, entry⟩) ∧
      branches = turns.map fun turn => turn.2.branch turn.1 place := by
  cases level with
  | builtIn operates => exact ⟨none, [], ⟨by simp, by simp, fun _ => .builtIn operates⟩, rfl, rfl⟩
  | @overridden entry base? operates after =>
      let turn (base : TypeId) : TypeId × PlaceStep := (base, .converted (resolver.table.spelling base))
      have branches (place : String) : (base?.toList.map fun base =>
          ({ type := base, place := s!"{resolver.table.spelling base}({place})" } : Branch)) =
          (base?.toList.map turn).map fun turn => turn.2.branch turn.1 place := by
        rw [List.map_map]
        rfl
      refine ⟨some entry, base?.toList.map turn, ⟨?distinct, ?legible, fun place => ?level⟩, rfl, branches place⟩
      case distinct => cases base? <;> simp
      case legible => exact List.forall_mem_map.mpr fun base _ => legible.spelling base
      case level =>
        rw [← branches]
        exact .overridden operates after
  | @lifted steps operates =>
      have slots := operates.legibleSlots ready legible
      refine ⟨none, steps.flatMap fun slot => (slot.placeSteps resolver.table).map (slot.type, ·),
        ⟨?distinct, ?legible, fun place => ?level⟩, rfl, branches_of_slots _ _ _⟩
      case distinct =>
        rw [steps_of_slots]
        exact slots.distinct _
      case legible =>
        intro turn member
        obtain ⟨slot, isSlot, isTurn⟩ := List.mem_flatMap.mp member
        obtain ⟨step, isStep, rfl⟩ := List.mem_map.mp isTurn
        exact legible.placeSteps slots isSlot step isStep
      case level =>
        rw [← branches_of_slots]
        exact .lifted operates

end Resolver
end LifecycleHooks

import LifecycleHooks.Proofs.Lifting.Agreement
import LifecycleHooks.Proofs.Lifting.CopiedStorage

/-!
# References back stand wherever a type is met again

A copy plan that comes back to an open type has followed a cycle of constituents.  Types on
a cycle of containment by value have no finite structure and are not followed, so the cycle
leads through storage that can be shared.  Hence the storage is found wherever the search
for it is answered, and the copy of the open type is referred back to: no part of a
recursive value is left out of its copy.
-/

namespace LifecycleHooks

open Attempt ResolveM Resolver

namespace Attempt

variable {State First Second Result : Type} {state : State}

/-- The fault of a computation, if it fails. -/
def fault? (action : Attempt State Result) (state : State) : Option Fault :=
  match action state with
  | .ok _ _ => none
  | .error fault _ => some fault

theorem run_of_fault? {action : Attempt State Result} {fault : Fault}
    (fails : action.fault? state = some fault) : action state = .error fault (action.finish state) := by
  unfold fault? at fails
  unfold finish
  cases run : action state with
  | ok other final =>
      rw [run] at fails
      cases fails
  | error other final =>
      rw [run] at fails
      cases fails
      rfl

/-- Two binds agree when what comes next agrees on all that the first part can give. -/
theorem bind_agrees {action : Attempt State First} {next other : First → Attempt State Second}
    (agree : ∀ first middle, action state = .ok first middle → next first middle = other first middle) :
    (action >>= next) state = (action >>= other) state := by
  rw [bind_run, bind_run]
  cases run : action state with
  | ok first middle => exact agree first middle run
  | error fault middle => rfl

/-- Two ways of mapping agree when they agree on the states that one of them leads to. -/
theorem mapM_agrees {done : State → State → Prop} [IsPreorder State done] {items : List First}
    {action other : First → Attempt State Second}
    (leads : ∀ item ∈ items, (other item).Leads done fun _ _ => True)
    (agree : ∀ item ∈ items, ∀ middle, done state middle → action item middle = other item middle) :
    items.mapM action state = items.mapM other state := by
  induction items generalizing state with
  | nil => rfl
  | cons item items ih =>
      rw [List.mapM_cons, List.mapM_cons, bind_run, bind_run, agree item List.mem_cons_self state (refl_of done state)]
      cases run : other item state with
      | error fault middle => rfl
      | ok result middle =>
          have onwards : done state middle := (leads item List.mem_cons_self).of_ok run
          have rest : items.mapM action middle = items.mapM other middle :=
            ih (fun next member => leads next (List.mem_cons_of_mem item member)) fun next member later behind =>
              agree next (List.mem_cons_of_mem item member) later (trans_of done onwards behind)
          dsimp only
          rw [bind_run, bind_run, rest]

end Attempt

namespace Resolver

/-- The resolvers over a table that have answered all that they were asked, while other
users of the table went on to make types. -/
inductive Attended (hooks : Registry) (table : TypeTable) : Resolver → Prop where
  | start : Attended hooks table { table := table }
  | asked {resolver later : Resolver} (earlier : Attended hooks table resolver) {fuel : Nat} {query : Query}
      (answered : query.ask hooks fuel resolver = .ok () later) : Attended hooks table later
  | shared {resolver : Resolver} (earlier : Attended hooks table resolver) {larger : TypeTable}
      (extends_ : resolver.table.Extends larger) : Attended hooks table { resolver with table := larger }

theorem Attended.sound {hooks : Registry} {table : TypeTable} {resolver : Resolver}
    (attended : Attended hooks table resolver) : resolver.Sound hooks := by
  induction attended with
  | start => exact ⟨Reached.start.ready, ⟨rfl, rfl, by simp, by simp, by simp⟩⟩
  | asked _ answered ih => exact ih.asked answered
  | shared _ extends_ ih => exact ih.shared extends_

/-- A resolver that has answered more than another one. -/
structure Onwards (hooks : Registry) (resolver later : Resolver) : Prop extends Extends resolver later where
  sound : resolver.Sound hooks → later.Sound hooks

instance (hooks : Registry) : IsPreorder Resolver (Onwards hooks) where
  refl resolver := ⟨.refl resolver, fun sound => sound⟩
  trans _ _ _ first second := ⟨first.toExtends.trans second.toExtends, fun sound => second.sound (first.sound sound)⟩

theorem onwards_leadsQueries (hooks : Registry) : LeadsQueries hooks (Onwards hooks) fun _ _ => True := by
  have extends_ := extends_leadsQueries hooks
  have readies := ready_leadsQueries hooks
  have explores := explored_leadsQueries hooks
  have join {Result : Type} {action : ResolveM Result} (extending : action.Preserves Extends)
      (readying : action.Preserves (StaysReady hooks)) (exploring : action.Leads StaysExplored fun _ _ => True) :
      action.Leads (Onwards hooks) fun _ _ => True :=
    leads_of_ok fun _ _ _ run => ⟨extending.of_ok run, fun sound =>
      ⟨readying.of_ok run sound.ready, exploring.of_ok run sound.explored⟩⟩
  constructor
  case toLeadsVerdicts =>
    constructor
    case bodies => exact fun id => join (extends_.bodies id) (readies.bodies id) (explores.bodies id)
    case constituents => exact fun id => join (extends_.constituents id) (readies.constituents id) (explores.constituents id)
    case unresolvable =>
      exact fun fuel id => join (extends_.unresolvable fuel id) (readies.unresolvable fuel id) (explores.unresolvable fuel id)
  case resolves =>
    exact fun fuel id kind => join (extends_.resolves fuel id kind) (readies.resolves fuel id kind) (explores.resolves fuel id kind)

section Cycles

variable {hooks : Registry} {resolver later : Resolver} {id part : TypeId} {active : List TypeId}

/-- A deep copy opens a type, which has a finite structure and no hook, and goes on to one
of its constituents. -/
structure Enters (hooks : Registry) (resolver : Resolver) (owner part : TypeId) : Prop where
  clear : resolver.Clear owner
  unbound : resolver.table.governingHook? hooks owner .deepCopy = .ok none
  follows : ∃ slots slot, relevantSlots owner .deepCopy resolver = .ok slots resolver ∧ slot ∈ slots ∧ slot.type = part

/-- A copy plan has come to a type inside the plans of the active types, the innermost of
which comes first. -/
inductive Enclosed (hooks : Registry) (resolver : Resolver) : (active : List TypeId) → TypeId → Prop where
  | outermost {id : TypeId} : Enclosed hooks resolver [] id
  | inside {active : List TypeId} {owner part : TypeId} (outer : Enclosed hooks resolver active owner)
      (enters : Enters hooks resolver owner part) : Enclosed hooks resolver (owner :: active) part

theorem Enters.extends_ (enters : Enters hooks resolver id part) (idle : resolver.Idle)
    (extends_ : resolver.Extends later) : Enters hooks later id part where
  clear := enters.clear.extends_ idle extends_
  unbound := TypeTable.stable_governingHook? hooks id _ _ _ _ extends_.table enters.unbound
  follows := by
    obtain ⟨slots, slot, parts, isSlot, same⟩ := enters.follows
    exact ⟨slots, slot, relevantSlots_kept parts extends_.table, isSlot, same⟩

theorem Enclosed.extends_ (enclosed : Enclosed hooks resolver active id) (idle : resolver.Idle)
    (extends_ : resolver.Extends later) : Enclosed hooks later active id := by
  induction enclosed with
  | outermost => exact .outermost
  | inside _ enters ih => exact .inside ih (enters.extends_ idle extends_)

/-- What a copy plan has come to is reached from each of the active types. -/
theorem Enclosed.path (enclosed : Enclosed hooks resolver active id) {other : TypeId} (isOpen : other ∈ active) :
    Relation.TransGen (Enters hooks resolver) other id := by
  induction enclosed with
  | outermost => cases isOpen
  | inside _ enters ih =>
      rcases List.mem_cons.mp isOpen with rfl | further
      · exact .single enters
      · exact (ih further).tail enters

theorem Enters.crossed (enters : Enters hooks resolver id part) : Crossed hooks resolver id where
  resolvable := enters.clear.resolvable
  unhooked entry hook := by
    cases (TypeTable.governingHook?_eq_ok_some.mpr hook).symm.trans enters.unbound

/-- The type that is opened, and the constituents among which a deep copy goes on. -/
theorem Enters.parts (enters : Enters hooks resolver id part) :
    ∃ type slots slot, resolver.table.get? id = some type ∧ followsConstituents .deepCopy type = true ∧
      TableM.constituents id resolver.table = .ok slots resolver.table ∧ slot ∈ slots ∧ slot.type = part := by
  obtain ⟨slots, slot, run, isSlot, same⟩ := enters.follows
  unfold relevantSlots at run
  obtain ⟨type, middle, fetched, run⟩ := bind_eq_ok.mp run
  obtain ⟨isType, unchanged⟩ := fetch_eq_ok.mp fetched
  rw [unchanged] at run
  split at run
  · rename_i follows
    obtain ⟨table, asked, kept⟩ := onTable_eq_ok.mp run
    obtain rfl : resolver.table = table := congrArg Resolver.table kept
    exact ⟨type, slots, slot, TypeTable.get_eq_ok.mp isType, follows, asked, isSlot, same⟩
  · obtain ⟨rfl, _⟩ := EStateM.Result.ok.inj run
    cases isSlot

/-- Constituents that a deep copy goes on to lie in storage that can be shared, or they are
contained by value. -/
theorem containsByValue_of_follows {table : TypeTable} {type : TypeDef} {slots : List Slot} {slot : Slot}
    (isType : table.get? id = some type) (follows : followsConstituents .deepCopy type = true)
    (parts : TableM.constituents id table = .ok slots table) (isSlot : slot ∈ slots)
    (alone : type.isSharedStorage = false) : containsByValue type = true := by
  have none (run : (pure [] : TableM (List Slot)) table = .ok slots table) : False := by
    obtain ⟨rfl, _⟩ := EStateM.Result.ok.inj run
    cases isSlot
  unfold TableM.constituents at parts
  rw [bind_run_of_ok (TableM.fetch_run isType)] at parts
  cases type with
  | wrap wrapper inner =>
      cases wrapper with
      | var => cases follows
      | lent => cases follows
      | _ => cases alone
  | typevar name => cases follows
  | scalar name => exact (none parts).elim
  | void => exact (none parts).elim
  | unknown => exact (none parts).elim
  | _ => rfl

/-- A step of a deep copy that does not lead into storage is one of containment by value. -/
theorem Enters.byValue (enters : Enters hooks resolver id part)
    (alone : ∀ type, resolver.table.get? id = some type → type.isSharedStorage = false) : resolver.ByValue id part := by
  obtain ⟨type, slots, slot, isType, follows, parts, isSlot, same⟩ := enters.parts
  refine ⟨slots.map Slot.type, ?_, List.mem_map.mpr ⟨slot, isSlot, same⟩⟩
  have worked : onTable (TableM.constituents id) resolver = .ok slots resolver :=
    onTable_eq_ok.mpr ⟨resolver.table, parts, rfl⟩
  unfold Parts byValueParts
  rw [bind_run_of_ok (enters.clear.judged.run 0), if_neg (by simp),
    bind_run_of_ok (fetch_eq_ok.mpr ⟨TypeTable.get_eq_ok.mpr isType, rfl⟩),
    if_pos (containsByValue_of_follows isType follows parts isSlot (alone type isType)), bind_run_of_ok worked]
  rfl

/-- A deep copy of a type opens storage that can be shared. -/
def MeetsStorage (hooks : Registry) (resolver : Resolver) (id : TypeId) : Prop :=
  ∃ storage type part, Relation.ReflTransGen (Enters hooks resolver) id storage ∧
    resolver.table.get? storage = some type ∧ type.isSharedStorage = true ∧ Enters hooks resolver storage part

/-- A deep copy that comes back to a type has opened storage on the way: otherwise the type
would contain itself by value, and would not have been found to have a finite structure. -/
theorem meetsStorage_of_cycle (explored : resolver.Explored)
    (cycle : Relation.TransGen (Enters hooks resolver) id id) : MeetsStorage hooks resolver id := by
  by_contra none
  have step : ∀ source other, Relation.ReflTransGen (Enters hooks resolver) id source →
      Enters hooks resolver source other →
      resolver.ByValue source other ∧ Relation.ReflTransGen (Enters hooks resolver) id other := by
    intro source other reached enters
    refine ⟨enters.byValue fun type isType => ?_, reached.tail enters⟩
    by_contra shared
    exact none ⟨source, type, other, reached, isType, by simpa using shared, enters⟩
  have byValue := (transGen_of_closed step .refl cycle).1
  obtain ⟨part, enters, _⟩ := Relation.TransGen.head'_iff.mp cycle
  have found := (explored.cycles id enters.clear.visited).mpr byValue
  simp [enters.clear.onNoCycle] at found

theorem MeetsStorage.extends_ (meets : MeetsStorage hooks resolver id) (idle : resolver.Idle)
    (extends_ : resolver.Extends later) : MeetsStorage hooks later id := by
  obtain ⟨storage, type, part, path, isType, shared, enters⟩ := meets
  have stillPath : Relation.ReflTransGen (Enters hooks later) id storage :=
    Relation.ReflTransGen.mono (fun _ _ turn => Enters.extends_ turn idle extends_) _ _ path
  exact ⟨storage, type, part, stillPath, extends_.table.get? isType, shared, enters.extends_ idle extends_⟩

theorem MeetsStorage.reaches (meets : MeetsStorage hooks resolver id) : ReachesStorage hooks resolver id := by
  obtain ⟨storage, type, part, path, isType, shared, enters⟩ := meets
  induction path using Relation.ReflTransGen.head_induction_on with
  | refl => exact .storage enters.crossed isType shared
  | head turn _ ih =>
      obtain ⟨_, slots, slot, _, _, parts, isSlot, rfl⟩ := turn.parts
      exact .step turn.crossed parts isSlot ih

/-- In a region without storage none is reached. -/
theorem Storeless.not_reachesStorage (storeless : resolver.Storeless id) : ¬ ReachesStorage hooks resolver id := by
  obtain ⟨region, member, bare⟩ := storeless
  intro reaches
  induction reaches with
  | storage crossed isType shared =>
      cases bare _ member with
      | held held => exact held.not_resolvable crossed.resolvable
      | clear _ isType' alone =>
          obtain rfl := Option.some.inj (isType.symm.trans isType')
          cases shared.symm.trans alone
  | step crossed parts isSlot _ ih =>
      cases bare _ member with
      | held held => exact held.not_resolvable crossed.resolvable
      | clear _ _ _ all inside =>
          obtain ⟨rfl, _⟩ := EStateM.Result.ok.inj (parts.symm.trans all)
          exact ih (inside _ isSlot)

/-- Storage that a deep copy opens is found wherever the search for it is answered. -/
theorem MeetsStorage.owns {fuel : Nat} {owns : Bool} (meets : MeetsStorage hooks resolver id) (idle : resolver.Idle)
    (run : ownsStorage fuel id resolver = .ok owns later) : owns = true := by
  cases owns with
  | true => rfl
  | false =>
      have passed : resolver.Extends later := (ownsStorage_leads (extends_leadsQueries hooks) fuel id).of_ok run
      exact absurd (meets.extends_ idle passed).reaches (storeless_of_run idle run).not_reachesStorage

theorem Enclosed.meetsStorage (enclosed : Enclosed hooks resolver active id) (isOpen : id ∈ active)
    (explored : resolver.Explored) : MeetsStorage hooks resolver id :=
  meetsStorage_of_cycle explored (enclosed.path isOpen)

end Cycles
end Resolver

namespace ResolveM

variable {hooks : Registry} {resolver final : Resolver} {id : TypeId} {place : String} {active : List TypeId}

/-- The copy plan for a value, with something else done where a type is met again and no
storage is found behind it. -/
def copyWithinOr (otherwise : TypeId → (place : String) → ResolveM (List CopyNode)) (hooks : Registry) :
    (fuel : Nat) → (active : List TypeId) → TypeId → (place : String) → ResolveM (List CopyNode)
  | 0, _, _, _ => throw .exhausted
  | fuel + 1, active, id, place => do
      if ← isUnresolvable fuel id then
        return []
      else
        match (← resolve hooks fuel id .deepCopy).outcome with
        | .overridden entry => return [.hook ⟨place, id, entry⟩]
        | .lifted _ | .builtIn => do
            let type ← fetch id
            if id ∈ active then
              if type.isSharedStorage || (← ownsStorage fuel id) then
                return [.recursive place id]
              else
                otherwise id place
            else
              copyInside (copyWithinOr otherwise hooks fuel (id :: active)) id place type

/-- With no plan in that place, it is the copy plan. -/
theorem copyWithinOr_nothing (fuel : Nat) (active : List TypeId) (id : TypeId) (place : String) :
    copyWithinOr (fun _ _ => return []) hooks fuel active id place = copyWithin hooks fuel active id place := by
  induction fuel generalizing active id place with
  | zero => rfl
  | succ fuel ih =>
      have inner : copyWithinOr (fun _ _ => return []) hooks fuel (id :: active) =
          copyWithin hooks fuel (id :: active) := funext fun part => funext fun partPlace => ih (id :: active) part partPlace
      rw [copyWithinOr, inner]
      exact (copyWithin_succ fuel active id place).symm

/-- A type that was asked for its deep copy and has no hook goes on to its constituents. -/
theorem enters_of_run {operation : Operation} {fuel : Nat} {slots : List Slot} {slot : Slot} {later : Resolver}
    (sound : resolver.Sound hooks) (clear : resolver.Clear id)
    (run : resolve hooks fuel id .deepCopy resolver = .ok operation final)
    (unhooked : ∀ entry, operation.outcome ≠ .overridden entry) (extends_ : final.Extends later)
    (parts : relevantSlots id .deepCopy later = .ok slots later) (isSlot : slot ∈ slots) :
    Enters hooks later id slot.type := by
  obtain ⟨ready, _, _, explained⟩ := resolve_explained sound.ready run
  have stillClear := clear.extends_ sound.ready.idle ((resolve_extends hooks fuel id .deepCopy).of_ok run)
  have unbound : final.table.governingHook? hooks id .deepCopy = .ok none := by
    cases isOutcome : operation.outcome with
    | overridden entry => exact absurd isOutcome (unhooked entry)
    | lifted steps =>
        rw [isOutcome] at explained
        cases explained with
        | lifted _ unbound => exact unbound
    | builtIn =>
        rw [isOutcome] at explained
        cases explained with
        | builtIn barren =>
            obtain ⟨region, member, barren⟩ := barren
            cases barren id member with
            | held held => exact absurd stillClear.resolvable held.not_resolvable
            | clear _ unbound => exact unbound
  exact
    { clear := stillClear.extends_ ready.idle extends_
      unbound := TypeTable.stable_governingHook? hooks id _ _ _ _ extends_.table unbound
      follows := ⟨slots, slot, parts, isSlot, rfl⟩ }

/-- Plans for constituents that agree wherever a deep copy goes on to them. -/
def AgreeInside (hooks : Registry) (resolver : Resolver) (id : TypeId)
    (plan other : TypeId → String → ResolveM (List CopyNode)) : Prop :=
  ∀ (later : Resolver) (slots : List Slot) (slot : Slot) (place : String), Onwards hooks resolver later →
    relevantSlots id .deepCopy later = .ok slots later → slot ∈ slots → plan slot.type place later = other slot.type place later

section Agreement

variable {plan other : TypeId → String → ResolveM (List CopyNode)}

theorem AgreeInside.later {later : Resolver} (agree : AgreeInside hooks resolver id plan other)
    (onwards : Onwards hooks resolver later) : AgreeInside hooks later id plan other :=
  fun last slots slot place behind => agree last slots slot place (trans_of (Onwards hooks) onwards behind)

theorem copySlot_agrees {slots : List Slot} {slot : Slot} (agree : AgreeInside hooks resolver id plan other)
    (leads : ∀ part partPlace, (other part partPlace).Leads (Onwards hooks) fun _ _ => True)
    (parts : relevantSlots id .deepCopy resolver = .ok slots resolver) (isSlot : slot ∈ slots) (place : String)
    {middle : Resolver} (onwards : Onwards hooks resolver middle) :
    copySlot plan place slot middle = copySlot other place slot middle := by
  have same (later : Resolver) (partPlace : String) (behind : Onwards hooks middle later) :
      plan slot.type partPlace later = other slot.type partPlace later := by
    have onwards := trans_of (Onwards hooks) onwards behind
    exact agree later slots slot partPlace onwards (relevantSlots_kept parts onwards.table) isSlot
  have placed : (slotPlace slot place).Leads (Onwards hooks) fun _ _ => True := slotPlace_leads slot place
  have alone : (do plan slot.type (← slotPlace slot place) : ResolveM (List CopyNode)) middle =
      (do other slot.type (← slotPlace slot place) : ResolveM (List CopyNode)) middle :=
    bind_agrees fun partPlace later run => same later partPlace (placed.of_ok run)
  unfold copySlot
  cases slot.step with
  | element count =>
      have each : (List.range (count.getD 0).toNat).mapM (fun index => plan slot.type s!"{place}[{index}]") middle =
          (List.range (count.getD 0).toNat).mapM (fun index => other slot.type s!"{place}[{index}]") middle :=
        mapM_agrees (fun index _ => leads slot.type _) fun index _ later behind => same later _ behind
      dsimp only
      rw [bind_run, bind_run, each]
  | pointee => rfl
  | _ => exact alone

/-- What is behind a parameter mode is not copied, so it does not matter how. -/
theorem copySlot_pointee {slot : Slot} (behindMode : slot.step = .pointee) (place : String) :
    copySlot plan place slot = copySlot other place slot := by
  simp [copySlot, behindMode]

theorem copySlots_agree {type : TypeDef} {slots : List Slot} {middle : Resolver}
    (agree : AgreeInside hooks resolver id plan other)
    (leads : ∀ part partPlace, (other part partPlace).Leads (Onwards hooks) fun _ _ => True)
    (isType : resolver.table.get? id = some type) (alone : type.isSharedStorage = false) (place : String)
    (asked : onTable (TableM.constituents id) resolver = .ok slots middle) :
    slots.mapM (copySlot plan place) middle = slots.mapM (copySlot other place) middle := by
  have working : (onTable (TableM.constituents id)).Leads (Onwards hooks) fun _ _ => True :=
    (onwards_leadsQueries hooks).constituents id
  have worked : Onwards hooks resolver middle := working.of_ok asked
  have stillType := worked.table.get? isType
  obtain ⟨table, answered, rfl⟩ := onTable_eq_ok.mp asked
  have kept : TableM.constituents id table = .ok slots table := TableM.constituents_kept answered (.refl table)
  refine mapM_agrees (fun slot _ => copySlot_leads leads place slot) fun slot isSlot later onwards => ?_
  cases follows : followsConstituents .deepCopy type with
  | true =>
      have parts : relevantSlots id .deepCopy { resolver with table := table } = .ok slots { resolver with table := table } := by
        rw [relevantSlots_run stillType, if_pos follows]
        exact onTable_eq_ok.mpr ⟨table, kept, rfl⟩
      exact copySlot_agrees (agree.later worked) leads parts isSlot place onwards
  | false =>
      refine congrFun (copySlot_pointee ?_ place) later
      unfold TableM.constituents at kept
      rw [bind_run_of_ok (TableM.fetch_run stillType)] at kept
      cases type with
      | wrap wrapper inner =>
          cases wrapper with
          | var =>
              obtain ⟨rfl, _⟩ := EStateM.Result.ok.inj kept
              rw [List.mem_singleton.mp isSlot]
          | lent =>
              obtain ⟨rfl, _⟩ := EStateM.Result.ok.inj kept
              rw [List.mem_singleton.mp isSlot]
          | _ => cases alone
      | typevar name =>
          obtain ⟨rfl, _⟩ := EStateM.Result.ok.inj kept
          cases isSlot
      | _ => cases follows

theorem copyInside_agrees {type : TypeDef} (agree : AgreeInside hooks resolver id plan other)
    (leads : ∀ part partPlace, (other part partPlace).Leads (Onwards hooks) fun _ _ => True)
    (isType : resolver.table.get? id = some type) (place : String) :
    copyInside plan id place type resolver = copyInside other id place type resolver := by
  have ofParts (alone : type.isSharedStorage = false) :
      (do let slots ← onTable (TableM.constituents id)
          let parts ← slots.mapM (copySlot plan place)
          return parts.flatten : ResolveM (List CopyNode)) resolver =
        (do let slots ← onTable (TableM.constituents id)
            let parts ← slots.mapM (copySlot other place)
            return parts.flatten : ResolveM (List CopyNode)) resolver := by
    refine bind_agrees fun slots middle asked => ?_
    have each : slots.mapM (copySlot plan place) middle = slots.mapM (copySlot other place) middle :=
      copySlots_agree agree leads isType alone place asked
    rw [bind_run, bind_run, each]
  have ofPlan {inner : TypeId} {slot : Slot} {part : String}
      (relevant : relevantSlots id .deepCopy resolver = .ok [slot] resolver) (same : slot.type = inner) :
      (do return [CopyNode.clone place id (← plan inner part)] : ResolveM (List CopyNode)) resolver =
        (do return [CopyNode.clone place id (← other inner part)] : ResolveM (List CopyNode)) resolver := by
    have agrees := agree resolver [slot] slot part (refl_of (Onwards hooks) resolver) relevant (List.mem_singleton_self slot)
    rw [same] at agrees
    rw [bind_run, bind_run, agrees]
  cases type with
  | wrap wrapper inner =>
      have relevant := relevantSlots_wrap isType
      cases wrapper with
      | var => exact ofParts rfl
      | lent => exact ofParts rfl
      | _ => exact ofPlan relevant rfl
  | _ => exact ofParts rfl

end Agreement

section Plans

variable {fuel : Nat}

/-- Where a type is met again storage is found behind it, so it does not matter what would be done
otherwise. -/
theorem copyWithinOr_agrees (otherwise : TypeId → (place : String) → ResolveM (List CopyNode))
    (sound : resolver.Sound hooks) (enclosed : Enclosed hooks resolver active id) :
    copyWithinOr otherwise hooks fuel active id place resolver = copyWithin hooks fuel active id place resolver := by
  induction fuel generalizing active id place resolver with
  | zero => rfl
  | succ fuel ih =>
      have leads := onwards_leadsQueries hooks
      rw [copyWithinOr, copyWithin_succ]
      refine bind_agrees fun unresolvable settled asking => ?_
      cases unresolvable with
      | true => rfl
      | false =>
          have clear := clear_of_answer asking
          have settles : Onwards hooks resolver settled := (leads.unresolvable fuel id).of_ok asking
          have settledSound := settles.sound sound
          refine bind_agrees fun operation middle resolved => ?_
          have resolves : Onwards hooks settled middle := (leads.resolves fuel id .deepCopy).of_ok resolved
          have middleSound := resolves.sound settledSound
          have idle := sound.ready.idle
          have stillEnclosed := enclosed.extends_ idle (settles.toExtends.trans resolves.toExtends)
          have rest (unhooked : ∀ entry, operation.outcome ≠ .overridden entry) :
              (do
                let type ← fetch id
                if id ∈ active then
                  if type.isSharedStorage || (← ownsStorage fuel id) then
                    return [CopyNode.recursive place id]
                  else
                    otherwise id place
                else
                  copyInside (copyWithinOr otherwise hooks fuel (id :: active)) id place type) middle =
                (do
                  let type ← fetch id
                  if id ∈ active then
                    if type.isSharedStorage || (← ownsStorage fuel id) then
                      return [CopyNode.recursive place id]
                    else
                      return []
                  else
                    copyInside (copyWithin hooks fuel (id :: active)) id place type) middle := by
            refine bind_agrees fun type last fetched => ?_
            obtain ⟨isType, unchanged⟩ := fetch_eq_ok.mp fetched
            rw [unchanged]
            by_cases isOpen : id ∈ active
            · simp only [if_pos isOpen]
              refine bind_agrees fun owns final searched => ?_
              have found := (stillEnclosed.meetsStorage isOpen middleSound.explored).owns middleSound.ready.idle searched
              rw [found, Bool.or_true]
              rfl
            · simp only [if_neg isOpen]
              refine copyInside_agrees (fun later slots slot partPlace onwards parts isSlot => ?_)
                (copyWithin_leads leads fuel (id :: active)) (TypeTable.get_eq_ok.mp isType) place
              have enters := enters_of_run settledSound clear resolved unhooked onwards.toExtends parts isSlot
              exact ih (onwards.sound middleSound)
                (.inside (stillEnclosed.extends_ middleSound.ready.idle onwards.toExtends) enters)
          cases isOutcome : operation.outcome with
          | overridden entry => rfl
          | _ => exact rest (by simp [isOutcome])

/-- The outcome of the deep copy of a type that it opens is not a hook. -/
theorem not_overridden_of_enters {part : TypeId} {operation : Operation} (ready : resolver.Ready hooks)
    (enters : Enters hooks resolver id part) (run : resolve hooks fuel id .deepCopy resolver = .ok operation final)
    (entry : HookEntry) : operation.outcome ≠ .overridden entry := by
  intro isHook
  obtain ⟨_, _, _, explained⟩ := resolve_explained ready run
  rw [isHook] at explained
  cases explained with
  | overridden _ hook =>
      have resolves := (resolve_extends hooks fuel id .deepCopy).of_ok run
      exact (enters.extends_ ready.idle resolves).crossed.unhooked entry hook

/-- A type that is met again is copied by a reference back. -/
theorem copyWithin_open {nodes : List CopyNode} (sound : resolver.Sound hooks)
    (enclosed : Enclosed hooks resolver active id) (isOpen : id ∈ active)
    (run : copyWithin hooks fuel active id place resolver = .ok nodes final) : nodes = [.recursive place id] := by
  obtain ⟨part, enters, _⟩ := Relation.TransGen.head'_iff.mp (enclosed.path isOpen)
  rw [← copyWithinOr_agrees (fun id place => return [.recursive place id]) sound enclosed] at run
  cases fuel with
  | zero => cases run
  | succ fuel =>
      rw [copyWithinOr] at run
      obtain ⟨unresolvable, settled, asking, run⟩ := bind_eq_ok.mp run
      obtain rfl := enters.clear.answer asking
      obtain ⟨operation, middle, resolved, run⟩ := bind_eq_ok.mp run
      have consults := (isUnresolvable_consults fuel id).of_ok asking
      have stillEnters := enters.extends_ sound.ready.idle consults.toExtends
      have rest (run : (do
            let type ← fetch id
            if id ∈ active then
              if type.isSharedStorage || (← ownsStorage fuel id) then
                return [CopyNode.recursive place id]
              else
                return [.recursive place id]
            else
              copyInside (copyWithinOr (fun id place => return [.recursive place id]) hooks fuel (id :: active))
                id place type) middle = .ok nodes final) : nodes = [.recursive place id] := by
        simp only [if_pos isOpen, ite_self] at run
        obtain ⟨_, _, _, run⟩ := bind_eq_ok.mp run
        obtain ⟨_, _, _, run⟩ := bind_eq_ok.mp run
        exact (EStateM.Result.ok.inj run).1.symm
      cases isOutcome : operation.outcome with
      | overridden entry =>
          exact absurd isOutcome (not_overridden_of_enters (sound.ready.consults consults) stillEnters resolved entry)
      | _ => exact rest (by rwa [isOutcome] at run)

/-- The copy of a type that is met again and reaches finitely many types is finished. -/
theorem copyWithin_open_settles (serving : Serving hooks resolver) (frozen : hooks.frozen = true)
    (has : resolver.table.Has id) (finite : (resolver.reach id).Finite) (isOpen : id ∈ active) (place : String) :
    Settles (fun _ _ => True) (fun fuel => copyWithin hooks fuel active id place) resolver := by
  have prepared := serving.prepared has
  have leads := prepared_leadsQueries hooks (resolver.reach id) [id]
  apply Settles.of_succ
  simp only [copyWithin_succ]
  apply (isUnresolvable_settles finite prepared.confined (prepared.within id (by simp))).bind
  intro unresolvable middle fuel run _
  have middlePrepared := (leads.unresolvable fuel id).of_ok run prepared
  cases unresolvable with
  | true => exact settles_pure trivial
  | false =>
      apply (resolve_settles frozen finite middlePrepared.confined (middlePrepared.within id (by simp))).bind
      intro operation later fuel resolved _
      have laterPrepared := (leads.resolves fuel id .deepCopy).of_ok resolved middlePrepared
      obtain ⟨type, found⟩ := (laterPrepared.within id (by simp)).1.exists
      have fetched : fetch id later = .ok type later := fetch_eq_ok.mpr ⟨TypeTable.get_eq_ok.mpr found, rfl⟩
      have rest : Settles (fun _ _ => True) (fun fuel => do
          let type ← fetch id
          if id ∈ active then
            if type.isSharedStorage || (← ownsStorage fuel id) then
              return [CopyNode.recursive place id]
            else
              return []
          else
            copyInside (copyWithin hooks fuel (id :: active)) id place type) later := by
        refine Settles.after fetched ?_
        simp only [if_pos isOpen]
        apply (ownsStorage_settles finite laterPrepared.confined (laterPrepared.within id (by simp))).bind
        intro owns _ _ _ _
        split <;> exact settles_pure trivial
      cases operation.outcome with
      | overridden entry => exact settles_pure trivial
      | lifted steps => exact rest
      | builtIn => exact rest

end Plans
end ResolveM

namespace Resolver

section BackEdges

variable {hooks : Registry} {table : TypeTable} {resolver : Resolver}

/-- What a copy plan has come to when it is about to refer back: storage that can be shared is
reached, the search for it finds it, and the copy is a reference back. -/
theorem Attended.refers_back (attended : Attended hooks table resolver) :
    (∀ fuel active id place, copyWithin hooks fuel active id place =
      copyWithinOr (fun _ _ => return []) hooks fuel active id place) ∧
    (∀ otherwise fuel id place, copyPlan hooks fuel id place resolver =
      copyWithinOr otherwise hooks fuel [] id place resolver) ∧
    ∀ active id place, Enclosed hooks resolver active id → id ∈ active →
      ReachesStorage hooks resolver id ∧
      (∀ fuel owns final, ownsStorage fuel id resolver = .ok owns final → owns = true) ∧
      (∀ fuel nodes final, copyWithin hooks fuel active id place resolver = .ok nodes final →
        nodes = [.recursive place id]) ∧
      (Serving hooks resolver → hooks.frozen = true → (resolver.reach id).Finite →
        Settles (fun nodes _ => nodes = [.recursive place id]) (fun fuel => copyWithin hooks fuel active id place)
          resolver) := by
  have sound := attended.sound
  refine ⟨fun fuel active id place => (copyWithinOr_nothing fuel active id place).symm,
    fun otherwise fuel id place => (copyWithinOr_agrees otherwise sound .outermost).symm, fun active id place enclosed isOpen => ?_⟩
  have meets := enclosed.meetsStorage isOpen sound.explored
  obtain ⟨part, enters, _⟩ := Relation.TransGen.head'_iff.mp (enclosed.path isOpen)
  refine ⟨meets.reaches, fun fuel owns final run => meets.owns sound.ready.idle run,
    fun fuel nodes final run => copyWithin_open sound enclosed isOpen run, fun serving frozen finite => ?_⟩
  apply (copyWithin_open_settles serving frozen enters.clear.judged.has finite isOpen place).mono
  exact fun nodes final fuel run _ => copyWithin_open sound enclosed isOpen run

/-- An object that is not generic does not grow. -/
theorem judged_object {id : TypeId} {object : ObjectType} (isType : resolver.table.get? id = some (.object object))
    (plain : object.params.isEmpty = true) : resolver.Judged id false := by
  have isOwnHead : resolver.table.head? id = .ok (some id) := by
    rw [TypeTable.head?, TypeTable.get_eq_ok.mpr isType]
    rfl
  exact .plain isOwnHead (TypeTable.get_eq_ok.mpr isType) plain

/-- A deep copy opens an object that is not generic, once it was found to have a finite structure. -/
theorem enters_object {id : TypeId} {object : ObjectType} {slot : Slot}
    (isType : resolver.table.get? id = some (.object object)) (plain : object.params.isEmpty = true)
    (visited : id ∈ resolver.visited) (onNoCycle : resolver.cycles.lookup id = none)
    (isSlot : slot ∈ object.body.slots) : Enters hooks resolver id slot.type where
  clear :=
    { judged := judged_object isType plain
      visited := visited
      onNoCycle := onNoCycle }
  unbound := by
    rw [TypeTable.governingHook?, TypeTable.get_eq_ok.mpr isType]
    rfl
  follows := by
    refine ⟨object.body.slots, slot, ?_, isSlot, rfl⟩
    rw [relevantSlots_run isType]
    refine onTable_eq_ok.mpr ⟨resolver.table, ?_, rfl⟩
    rw [TableM.constituents, bind_run_of_ok (TableM.fetch_run isType)]
    dsimp only
    rw [TableM.body, bind_assoc, bind_run_of_ok (TableM.fetch_run isType)]
    rfl

/-- A deep copy opens storage that can be shared when no hook is bound to it. -/
theorem enters_wrap {id inner : TypeId} {wrapper : Wrapper}
    (isType : resolver.table.get? id = some (.wrap wrapper inner))
    (shared : (TypeDef.wrap wrapper inner).isSharedStorage = true)
    (unbound : resolver.table.governingHook? hooks id .deepCopy = .ok none)
    (visited : id ∈ resolver.visited) (onNoCycle : resolver.cycles.lookup id = none) :
    Enters hooks resolver id inner where
  clear :=
    { judged := .headless (by rw [TypeTable.head?, TypeTable.get_eq_ok.mpr isType]; rfl)
      visited := visited
      onNoCycle := onNoCycle }
  unbound := unbound
  follows := by
    cases wrapper with
    | ref => exact ⟨_, _, relevantSlots_wrap isType, List.mem_singleton_self _, rfl⟩
    | ptr => exact ⟨_, _, relevantSlots_wrap isType, List.mem_singleton_self _, rfl⟩
    | seq => exact ⟨_, _, relevantSlots_wrap isType, List.mem_singleton_self _, rfl⟩
    | _ => cases shared

/-- Lists of numbers, the rest of which is behind a reference. -/
def listTable : TypeTable :=
  TypeTable.after {} [.int, .object "List" [] {}, .wrap .ref 2, .define 2 { fields := [⟨"v", 1⟩, ⟨"next", 3⟩] }]

theorem listTable_built : listTable.Built :=
  TypeTable.Built.empty.after (by decide +kernel)

/-- The object of these lists. -/
def listObject : ObjectType where
  name := "List"
  params := []
  body := { fields := [⟨"v", 1⟩, ⟨"next", 3⟩] }
  span := {}

/-- A resolver that has planned the copy of a list. -/
def listResolver : Resolver :=
  ((Query.copyPlan 2 "l").ask noHooks 9).finish { table := listTable }

theorem refers_back_list :
    Attended noHooks listTable listResolver ∧ Enclosed noHooks listResolver [3, 2] 2 ∧ Serving noHooks listResolver ∧
      (listResolver.reach 2).Finite ∧
      Settles (fun nodes _ => nodes = [.recursive "l.next[]" 2])
        (fun fuel => copyWithin noHooks fuel [3, 2] 2 "l.next[]") listResolver := by
  have answered : ((Query.copyPlan 2 "l").ask noHooks 9).result? { table := listTable } = some () := by decide +kernel
  have attended : Attended noHooks listTable listResolver := .asked .start (run_of_result? answered)
  have serving : Serving noHooks listResolver := .asked (.start listTable_built) 9 (.copyPlan 2 "l")
  have isList : listResolver.table.get? 2 = some (.object listObject) := by decide +kernel
  have isRest : listResolver.table.get? 3 = some (.wrap .ref 2) := by decide +kernel
  have unbound : listResolver.table.governingHook? noHooks 3 .deepCopy = .ok none := by decide +kernel
  have intoRest : Enters noHooks listResolver 2 3 :=
    enters_object isList rfl (by decide +kernel) (by decide +kernel) (List.mem_cons_of_mem _ List.mem_cons_self)
  have backToList : Enters noHooks listResolver 3 2 :=
    enters_wrap isRest rfl unbound (by decide +kernel) (by decide +kernel)
  have enclosed : Enclosed noHooks listResolver [3, 2] 2 := .inside (.inside .outermost intoRest) backToList
  have closed : leadsToEachOther listResolver.table [1, 2, 3] = true := by decide +kernel
  have finite := finite_reach serving.intact (List.mem_cons_of_mem 1 List.mem_cons_self) closed
  refine ⟨attended, enclosed, serving, finite, ?_⟩
  exact (attended.refers_back.2.2 [3, 2] 2 "l.next[]" enclosed (by simp)).2.2.2 serving rfl finite

/-- Objects that hold a sequence of themselves in front of a parameter mode of a type that does not
exist. -/
def looseTable : TypeTable :=
  TypeTable.after {} [.object "A" [] {}, .wrap .seq 1, .wrap .var 999,
    .define 1 { fields := [⟨"next", 2⟩, ⟨"mode", 3⟩] }]

/-- The object that holds them. -/
def looseObject : ObjectType where
  name := "A"
  params := []
  body := { fields := [⟨"next", 2⟩, ⟨"mode", 3⟩] }
  span := {}

/-- Whenever a type is met again, nothing but the budget keeps its copy from being a reference
back. -/
def ReentriesReferBack : Prop :=
  ∀ hooks table resolver, hooks.frozen = true → Attended hooks table resolver →
    ∀ active id place, Enclosed hooks resolver active id → id ∈ active → ∀ fuel,
      (∃ final, copyWithin hooks fuel active id place resolver = .ok [.recursive place id] final) ∨
        ∃ final, copyWithin hooks fuel active id place resolver = .error .exhausted final

/-- The search for storage comes upon the type that does not exist before it comes to the
sequence. -/
theorem not_reentriesReferBack : ¬ ReentriesReferBack := by
  intro refersBack
  let ask (id : TypeId) : ResolveM Unit := (Query.resolve id .deepCopy).ask noHooks 9
  let object := (ask 1).finish { table := looseTable }
  let loose := (ask 2).finish object
  have askObject : (ask 1).result? { table := looseTable } = some () := by decide +kernel
  have askSequence : (ask 2).result? object = some () := by decide +kernel
  have attended : Attended noHooks looseTable loose :=
    .asked (.asked .start (run_of_result? askObject)) (run_of_result? askSequence)
  have isObject : loose.table.get? 1 = some (.object looseObject) := by decide +kernel
  have isSequence : loose.table.get? 2 = some (.wrap .seq 1) := by decide +kernel
  have unbound : loose.table.governingHook? noHooks 2 .deepCopy = .ok none := by decide +kernel
  have intoSequence : Enters noHooks loose 1 2 :=
    enters_object isObject rfl (by decide +kernel) (by decide +kernel) List.mem_cons_self
  have backToObject : Enters noHooks loose 2 1 :=
    enters_wrap isSequence rfl unbound (by decide +kernel) (by decide +kernel)
  have enclosed : Enclosed noHooks loose [2, 1] 1 := .inside (.inside .outermost intoSequence) backToObject
  have fails : (copyWithin noHooks 9 [2, 1] 1 "a.next[i]").fault? loose = some (.unknownId 999) := by decide +kernel
  have failed := run_of_fault? fails
  rcases refersBack noHooks looseTable loose rfl attended [2, 1] 1 "a.next[i]" enclosed (by simp) 9 with
    ⟨final, run⟩ | ⟨final, run⟩
  · cases run.symm.trans failed
  · cases run.symm.trans failed

end BackEdges
end Resolver
end LifecycleHooks

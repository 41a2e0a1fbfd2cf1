import LifecycleHooks.Proofs.Lifting.CloneOrder
import LifecycleHooks.Proofs.Lifting.PlaceSteps

/-!
# The places of a plan

A plan reaches each part of a value along a way of its own, and none of the ways that it goes
on to leads to another one.  Since a place tells the way that leads to it, no place occurs
twice in a plan, whether it is called there or copied.
-/

namespace LifecycleHooks

/-- The place that a part of a plan is about. -/
def CallNode.place : CallNode → String
  | .hook call => call.place
  | .lifted place _ _ => place
  | .elements place _ _ => place

/-- The place at which a copy plan does something. -/
def CopyStop.place : CopyStop → String
  | .hook call => call.place
  | .clone place _ => place
  | .recursive place _ => place

/-- Steps from a root to a place, the last step first. -/
abbrev Way := List PlaceStep

/-- Two ways neither of which leads on to the other. -/
def Way.Apart (one other : Way) : Prop := ¬ one <:+ other ∧ ¬ other <:+ one

/-- The ways behind others that places belong to, each to a way of its own. -/
structure Way.Behind (ways marks : List Way) : Prop where
  distinct : marks.Nodup
  legible : ∀ mark ∈ marks, ∀ step ∈ mark, step.IsLegible
  leads : ∀ mark ∈ marks, ∃ way ∈ ways, way <:+ mark

/-- Places behind some ways from a root. -/
def Behind (root : String) (ways : List Way) (places : List String) : Prop :=
  ∃ marks, Way.Behind ways marks ∧ places = marks.map (placeOf root)

section Ways

variable {root : String} {way : Way} {ways : List Way} {places others : List String}

theorem behind_nil (root : String) (ways : List Way) : Behind root ways [] :=
  ⟨[], ⟨.nil, by simp, by simp⟩, rfl⟩

theorem behind_here (root : String) (legible : ∀ step ∈ way, step.IsLegible) : Behind root [way] [placeOf root way] :=
  ⟨[way], ⟨List.nodup_singleton way, by simpa using legible, by simp⟩, rfl⟩

/-- What lies behind two ways that are apart is different. -/
theorem Behind.cons (own : Behind root [way] places) (rest : Behind root ways others)
    (apart : ∀ other ∈ ways, way.Apart other) : Behind root (way :: ways) (places ++ others) := by
  obtain ⟨marks, first, rfl⟩ := own
  obtain ⟨behind, later, rfl⟩ := rest
  refine ⟨marks ++ behind, ⟨?distinct, ?legible, ?leads⟩, List.map_append.symm⟩
  case distinct =>
    refine List.nodup_append.mpr ⟨first.distinct, later.distinct, fun mark isFirst other isLater same => ?_⟩
    obtain ⟨start, isStart, before⟩ := first.leads mark isFirst
    obtain rfl := List.mem_singleton.mp isStart
    obtain ⟨last, isLast, beforeToo⟩ := later.leads other isLater
    rw [← same] at beforeToo
    cases List.suffix_or_suffix_of_suffix before beforeToo with
    | inl onwards => exact (apart last isLast).1 onwards
    | inr onwards => exact (apart last isLast).2 onwards
  case legible => exact List.forall_mem_append.mpr ⟨first.legible, later.legible⟩
  case leads =>
    refine List.forall_mem_append.mpr ⟨fun mark member => ?_, fun mark member => ?_⟩
    · obtain ⟨start, isStart, before⟩ := first.leads mark member
      obtain rfl := List.mem_singleton.mp isStart
      exact ⟨_, List.mem_cons_self, before⟩
    · obtain ⟨start, isStart, before⟩ := later.leads mark member
      exact ⟨start, List.mem_cons_of_mem _ isStart, before⟩

/-- Different steps from one place go apart. -/
theorem pairwise_apart {steps : List PlaceStep} (distinct : steps.Nodup) (way : Way) :
    (steps.map (· :: way)).Pairwise Way.Apart := by
  refine List.pairwise_map.mpr (distinct.imp fun {step other} differ => ⟨fun onwards => ?_, fun onwards => ?_⟩)
  · exact differ (List.cons.inj (onwards.eq_of_length (by simp))).1
  · exact differ (List.cons.inj (onwards.eq_of_length (by simp))).1.symm

/-- What lies behind further steps lies behind the way. -/
theorem Behind.onwards {steps : List PlaceStep} (inner : Behind root (steps.map (· :: way)) places) :
    Behind root [way] places := by
  obtain ⟨marks, behind, rfl⟩ := inner
  refine ⟨marks, ⟨behind.distinct, behind.legible, fun mark member => ?_⟩, rfl⟩
  obtain ⟨start, isStart, before⟩ := behind.leads mark member
  obtain ⟨step, _, rfl⟩ := List.mem_map.mp isStart
  exact ⟨way, List.mem_singleton_self way, (List.suffix_cons step way).trans before⟩

/-- The place itself is none of those behind further steps. -/
theorem Behind.withHere {steps : List PlaceStep} (legible : ∀ step ∈ way, step.IsLegible)
    (inner : Behind root (steps.map (· :: way)) places) : Behind root [way] (placeOf root way :: places) := by
  obtain ⟨marks, behind, rfl⟩ := inner.onwards
  obtain ⟨others, further, same⟩ := inner
  refine ⟨way :: others, ⟨List.nodup_cons.mpr ⟨fun member => ?_, further.distinct⟩,
    List.forall_mem_cons.mpr ⟨legible, further.legible⟩, ?_⟩, by rw [List.map_cons, same]⟩
  · obtain ⟨start, isStart, before⟩ := further.leads way member
    obtain ⟨step, _, rfl⟩ := List.mem_map.mp isStart
    have := before.length_le
    simp at this
  · refine List.forall_mem_cons.mpr ⟨⟨way, List.mem_singleton_self way, List.suffix_refl way⟩, fun mark member => ?_⟩
    obtain ⟨start, isStart, before⟩ := further.leads mark member
    obtain ⟨step, _, rfl⟩ := List.mem_map.mp isStart
    exact ⟨way, List.mem_singleton_self way, (List.suffix_cons step way).trans before⟩

/-- A place tells the way that leads to it. -/
theorem Behind.nodup (plain : IsPlain root) (behind : Behind root ways places) : places.Nodup := by
  obtain ⟨marks, ⟨distinct, legible, -⟩, rfl⟩ := behind
  refine (List.nodup_map_iff_inj_on distinct).mpr fun mark member other isOther same => ?_
  exact placeOf_injective plain (legible mark member) (legible other isOther) same

end Ways

namespace Resolver

open Attempt ResolveM

section Places

variable {hooks : Registry} {kind : OpKind} {resolver : Resolver} {active : List TypeId} {root : String}
  {ways : List Way}

theorem Planned.places (ready : resolver.Ready hooks) (legible : resolver.table.Legible) {branches : List Branch}
    {calls : List PlannedCall} (planned : Planned hooks kind resolver active branches calls)
    (places : branches.map Branch.place = ways.map (placeOf root)) (apart : ways.Pairwise Way.Apart)
    (plain : ∀ way ∈ ways, ∀ step ∈ way, step.IsLegible) :
    Behind root ways (calls.map fun call => call.node.place) := by
  induction planned generalizing ways with
  | done =>
      obtain rfl := List.map_eq_nil_iff.mp places.symm
      exact behind_nil root []
  | again kept recurs isOpen others ih =>
      obtain ⟨way, ways, rfl, here, behind⟩ := List.map_eq_cons_iff.mp places.symm
      obtain ⟨first, rest⟩ := List.forall_mem_cons.mp plain
      obtain ⟨fromFirst, amongRest⟩ := List.pairwise_cons.mp apart
      have own := behind_here root first
      rw [here] at own
      exact own.cons (ih behind.symm amongRest rest) fromFirst
  | @opened active branch _ inner hookCalls innerCalls _ kept level new insides others insideIh ih =>
      obtain ⟨way, ways, rfl, here, behind⟩ := List.map_eq_cons_iff.mp places.symm
      obtain ⟨first, rest⟩ := List.forall_mem_cons.mp plain
      obtain ⟨fromFirst, amongRest⟩ := List.pairwise_cons.mp apart
      obtain ⟨hook?, turns, isLevel, rfl, rfl⟩ := level.turns ready legible
      have inside : Behind root ((turns.map Prod.snd).map (· :: way)) (innerCalls.map fun call => call.node.place) := by
        refine insideIh ?_ (pairwise_apart isLevel.distinct way) fun other member => ?_
        · rw [← here, List.map_map, List.map_map, List.map_map]
          rfl
        · obtain ⟨step, isStep, rfl⟩ := List.mem_map.mp member
          obtain ⟨turn, isTurn, rfl⟩ := List.mem_map.mp isStep
          exact List.forall_mem_cons.mpr ⟨isLevel.legible turn isTurn, first⟩
      have own : Behind root [way] ((hook?.toList.map fun _ => branch.place) ++
          innerCalls.map fun call => call.node.place) := by
        cases hook? with
        | none => exact inside.onwards
        | some entry =>
            rw [← here]
            exact inside.withHere first
      have together := own.cons (ih behind.symm amongRest rest) fromFirst
      simpa [Function.comp_def, PlannedCall.ofHook, CallNode.place] using together

theorem Copied.places (legible : resolver.table.Legible) {branches : List Branch} {nodes : List CopyNode}
    (copied : Copied resolver active branches nodes) (places : branches.map Branch.place = ways.map (placeOf root))
    (apart : ways.Pairwise Way.Apart) (plain : ∀ way ∈ ways, ∀ step ∈ way, step.IsLegible) :
    Behind root ways ((copyStops nodes).map CopyStop.place) := by
  induction copied generalizing ways with
  | done =>
      obtain rfl := List.map_eq_nil_iff.mp places.symm
      exact behind_nil root []
  | held held others ih =>
      obtain ⟨way, ways, rfl, here, behind⟩ := List.map_eq_cons_iff.mp places.symm
      obtain ⟨-, rest⟩ := List.forall_mem_cons.mp plain
      obtain ⟨fromFirst, amongRest⟩ := List.pairwise_cons.mp apart
      exact (behind_nil root [way]).cons (ih behind.symm amongRest rest) fromFirst
  | hooked kept others ih =>
      obtain ⟨way, ways, rfl, here, behind⟩ := List.map_eq_cons_iff.mp places.symm
      obtain ⟨first, rest⟩ := List.forall_mem_cons.mp plain
      obtain ⟨fromFirst, amongRest⟩ := List.pairwise_cons.mp apart
      have own := behind_here root first
      rw [here] at own
      simpa [CopyStop.place] using own.cons (ih behind.symm amongRest rest) fromFirst
  | @again active branch rest' nodes outcome owns kept unbound isOpen bare others ih =>
      obtain ⟨way, ways, rfl, here, behind⟩ := List.map_eq_cons_iff.mp places.symm
      obtain ⟨first, rest⟩ := List.forall_mem_cons.mp plain
      obtain ⟨fromFirst, amongRest⟩ := List.pairwise_cons.mp apart
      have own : Behind root [way] ((copyStops
          (if owns then [CopyNode.recursive branch.place branch.type] else [])).map CopyStop.place) := by
        cases owns with
        | true => simpa [CopyStop.place, here] using behind_here root first
        | false => exact behind_nil root [way]
      simpa using own.cons (ih behind.symm amongRest rest) fromFirst
  | @opened active branch rest' nodes inner outcome type slots kept unbound clear new isType parts insides others
      insideIh ih =>
      obtain ⟨way, ways, rfl, here, behind⟩ := List.map_eq_cons_iff.mp places.symm
      obtain ⟨first, rest⟩ := List.forall_mem_cons.mp plain
      obtain ⟨fromFirst, amongRest⟩ := List.pairwise_cons.mp apart
      have told := relevantSlots_legible legible parts
      let steps := slots.flatMap (Slot.placeSteps resolver.table)
      have inside : Behind root (steps.map (· :: way)) ((copyStops inner).map CopyStop.place) := by
        refine insideIh ?_ (pairwise_apart (told.distinct _) way) fun other member => ?_
        · rw [places_of_branches, ← here, List.map_map]
          rfl
        · obtain ⟨step, isStep, rfl⟩ := List.mem_map.mp member
          obtain ⟨slot, isSlot, fromSlot⟩ := List.mem_flatMap.mp isStep
          exact List.forall_mem_cons.mpr ⟨legible.placeSteps told isSlot step fromSlot, first⟩
      have own : Behind root [way] ((copyStops
          (if type.isSharedStorage then [.clone branch.place branch.type inner] else inner)).map CopyStop.place) := by
        split
        · simpa [CopyStop.place, here] using inside.withHere first
        · exact inside.onwards
      simpa using own.cons (ih behind.symm amongRest rest) fromFirst

end Places

section Plans

variable {hooks : Registry} {resolver : Resolver} {trees : Set TypeTree} {id : TypeId} {place : String}

/-- The places of the calls in the plan for an operation are all different. -/
theorem expand_places (frozen : hooks.frozen = true) (finite : trees.Finite)
    (prepared : resolver.Prepared hooks trees [id]) (legible : resolver.table.Legible) (plain : IsPlain place)
    (kind : OpKind) :
    Settles (fun plan _ => ((plannedCalls plan).map fun call => call.node.place).Nodup)
      (fun fuel => expand hooks fuel id kind place) resolver := by
  apply (expandWithin_settles frozen finite prepared List.nodup_nil place).mono
  intro plan final fuel run _
  have planned := expandWithin_planned run (.refl final)
  have later := (expandWithin_leads (prepared_leadsQueries hooks trees [id]) kind fuel [] id place).of_ok run prepared
  have stillLegible : final.table.Legible :=
    (expandWithin_leads (legible_leadsQueries hooks) kind fuel [] id place).of_ok run legible
  have fromRoot : [({ type := id, place := place } : Branch)].map Branch.place = [[]].map (placeOf place) := rfl
  exact (planned.places later.ready stillLegible fromRoot (List.pairwise_singleton _ _) (by simp)).nodup plain

/-- The places at which a copy plan does something are all different. -/
theorem copyPlan_places (frozen : hooks.frozen = true) (finite : trees.Finite)
    (prepared : resolver.Prepared hooks trees [id]) (legible : resolver.table.Legible) (plain : IsPlain place) :
    Settles (fun plan _ => ((copyStops plan).map CopyStop.place).Nodup)
      (fun fuel => copyPlan hooks fuel id place) resolver := by
  apply (copyWithin_settles frozen finite prepared List.nodup_nil place).mono
  intro plan final fuel run _
  have copied := copyWithin_copied prepared.ready.idle run (.refl final)
  have stillLegible : final.table.Legible :=
    (copyWithin_leads (legible_leadsQueries hooks) fuel [] id place).of_ok run legible
  have fromRoot : [({ type := id, place := place } : Branch)].map Branch.place = [[]].map (placeOf place) := rfl
  exact (copied.places stillLegible fromRoot (List.pairwise_singleton _ _) (by simp)).nodup plain

end Plans
end Resolver
end LifecycleHooks

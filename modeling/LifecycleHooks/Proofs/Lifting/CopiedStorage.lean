import LifecycleHooks.Proofs.Lifting.CloneOrder

/-!
# No storage stays shared

The copy plan for a type that reaches finitely many types is finished, and so is each
unfolding of it.  It copies all storage that a deep copy reaches, and a plain copy of the
bits suffices only where none is reached.  A deep copy follows no parameter modes, so what
lies behind one stays shared.
-/

namespace LifecycleHooks

open Attempt ResolveM Resolver

namespace ResolveM

/-- Replace a reference back by the copy plan that it stands for. -/
def unfoldStop (hooks : Registry) (fuel : Nat) : CopyStop → ResolveM (List CopyStop)
  | .recursive place type => do return copyStops (← copyPlan hooks fuel type place)
  | stop => return [stop]

/-- What the copy plan for a value does, with the references back unfolded a number of
times. -/
def unfoldedCopy (hooks : Registry) (fuel : Nat) (id : TypeId) (place : String) :
    (times : Nat) → ResolveM (List CopyStop)
  | 0 => do return copyStops (← copyPlan hooks fuel id place)
  | times + 1 => do
      let stops ← unfoldedCopy hooks fuel id place times
      let parts ← stops.mapM (unfoldStop hooks fuel)
      return parts.flatten

section Unfolding

variable {hooks : Registry} {trees : Set TypeTree} {ids : List TypeId} {resolver final later : Resolver}
  {fuel : Nat}

theorem unfoldStop_leads {done failed : Resolver → Resolver → Prop} [IsLead done failed]
    (leads : LeadsQueries hooks done failed) (fuel : Nat) (stop : CopyStop) :
    (unfoldStop hooks fuel stop).Leads done failed := by
  cases stop with
  | recursive place type => exact (copyWithin_leads leads fuel [] type place).bind fun _ => leads_pure _
  | _ => exact leads_pure _

theorem unfoldStop_unfolds {stop : CopyStop} {stops : List CopyStop} (idle : resolver.Idle)
    (run : unfoldStop hooks fuel stop resolver = .ok stops final) (extends_ : final.Extends later) :
    Unfolds later stop stops := by
  cases stop with
  | recursive place type =>
      obtain ⟨nodes, middle, planned, rest⟩ := bind_eq_ok.mp run
      obtain ⟨rfl, rfl⟩ := EStateM.Result.ok.inj rest
      exact .recursive (copyWithin_copied idle planned extends_)
  | _ =>
      obtain ⟨rfl, rfl⟩ := EStateM.Result.ok.inj run
      exact .made trivial

theorem unfoldStops_unfold {stops : List CopyStop} {parts : List (List CopyStop)} (idle : resolver.Idle)
    (run : stops.mapM (unfoldStop hooks fuel) resolver = .ok parts final) (extends_ : final.Extends later) :
    List.Forall₂ (Unfolds later) stops parts := by
  let follows (state : Resolver) (stop : CopyStop) (part : List CopyStop) : Prop :=
    ∀ later : Resolver, state.Extends later → Unfolds later stop part
  have told : List.Forall₂ (follows final) stops parts :=
    mapM_tells_behind follows (unfoldStop_leads (extends_leadsQueries hooks) fuel)
      (fun stop before after part onwards unfolded later behind =>
        unfoldStop_unfolds (idle.extends_ onwards) unfolded behind)
      (fun stop part before after unfolds onwards later behind => unfolds later (onwards.trans behind))
      run
  exact told.imp fun stop part unfolds => unfolds later extends_

theorem unfoldStop_settles {stop : CopyStop} (frozen : hooks.frozen = true) (finite : trees.Finite)
    (prepared : resolver.Prepared hooks trees ids) (known : ∀ place type, stop = .recursive place type → type ∈ ids) :
    Settles (fun _ later => later.Prepared hooks trees ids) (fun fuel => unfoldStop hooks fuel stop) resolver := by
  cases stop with
  | recursive place type =>
      have single : resolver.Prepared hooks trees [type] :=
        prepared.subset (List.cons_subset.mpr ⟨known place type rfl, List.nil_subset _⟩)
      exact settles_prepared prepared
        (fun fuel => unfoldStop_leads (prepared_leadsQueries hooks trees ids) fuel (.recursive place type))
        ((copyWithin_settles frozen finite single List.nodup_nil place).bind fun _ _ _ _ _ => settles_pure trivial)
  | _ => exact settles_pure prepared

/-- However often it is unfolded, the copy plan for a type that reaches finitely many types
is finished, and it covers the deep copy. -/
theorem unfoldedCopy_settles {id : TypeId} (frozen : hooks.frozen = true) (finite : trees.Finite)
    (prepared : resolver.Prepared hooks trees [id]) (place : String) (times : Nat) :
    Settles (fun stops final => final.Prepared hooks trees [id] ∧
        ∀ later : Resolver, final.Extends later → later.Ready hooks →
          Covers hooks later (times + 1) [{ type := id, place := place }] stops)
      (fun fuel => unfoldedCopy hooks fuel id place times) resolver := by
  have leads {ids : List TypeId} := prepared_leadsQueries hooks trees ids
  induction times with
  | zero =>
      apply Settles.bind (copyWithin_settles frozen finite prepared List.nodup_nil place)
      intro nodes middle fuel run _
      refine settles_pure ⟨(copyWithin_leads leads fuel [] id place).of_ok run prepared, ?_⟩
      exact fun later extends_ ready =>
        (copyWithin_copied prepared.ready.idle run extends_).covers ready le_rfl fun _ => rfl
  | succ times ih =>
      apply ih.bind
      rintro stops middle _ _ ⟨between, covers⟩
      let back := stops.filterMap CopyStop.backTo?
      have inside := (covers middle (.refl middle) between.ready).within between.confined
        (List.forall_mem_singleton.mpr (between.within id (by simp)))
      have holds : middle.Prepared hooks trees (back ++ [id]) := by
        refine between.with_types fun type member => ?_
        obtain ⟨stop, isStop, isType⟩ := List.mem_filterMap.mp member
        cases stop with
        | recursive place type =>
            obtain rfl := Option.some.inj isType
            exact inside place _ isStop
        | _ => cases isType
      have each : Settles (fun _ later => later.Prepared hooks trees (back ++ [id]))
          (fun fuel => stops.mapM (unfoldStop hooks fuel)) middle := by
        refine settles_mapM (fun stop member state prepared => ?_) holds
        refine unfoldStop_settles frozen finite prepared ?_
        rintro place type rfl
        exact List.mem_append_left _ (List.mem_filterMap.mpr ⟨_, member, rfl⟩)
      apply each.bind
      intro parts final fuel run after
      refine settles_pure ⟨after.subset (List.subset_append_right _ _), fun later extends_ ready => ?_⟩
      have learned : middle.Extends final :=
        (leads_mapM fun stop _ => unfoldStop_leads (extends_leadsQueries hooks) fuel stop).of_ok run
      exact (covers later (learned.trans extends_) ready).unfolded ready
        (unfoldStops_unfold between.ready.idle run extends_)

end Unfolding
end ResolveM

namespace Resolver

variable {hooks : Registry} {resolver final : Resolver} {id : TypeId}

/-- Where a plain copy of the bits suffices, a deep copy reaches nothing to be copied. -/
theorem nothing_copied_of_isBitwise {fuel index : Nat} {spawn : Spawn} {arg : Expr} {handoff : Handoff}
    (serving : Serving hooks resolver) (typed : arg.type = some id)
    (run : handOff hooks fuel spawn arg index resolver = .ok (some handoff) final)
    (bitwise : handoff.isBitwise = true) {path : List Nat} {stop : CopyStop} (made : stop.isMade) :
    ¬ CopiedAt hooks final id (argumentPlace arg index) path stop := by
  unfold handOff at run
  rw [typed] at run
  obtain ⟨operation, resolved, asking, run⟩ := bind_eq_ok.mp run
  obtain ⟨plan, planned, copy, run⟩ := bind_eq_ok.mp run
  obtain ⟨same, rfl⟩ := EStateM.Result.ok.inj run
  obtain rfl := Option.some.inj same
  obtain ⟨_, isEmpty⟩ := Bool.and_eq_true_iff.mp bitwise
  obtain rfl : plan = [] := List.isEmpty_iff.mp isEmpty
  have ready := (resolve_ready fuel id .deepCopy).of_ok asking serving.ready
  have stillReady := (copyWithin_leads (ready_leadsQueries hooks) fuel [] id _).of_ok copy ready
  have covers := (copyWithin_copied ready.idle copy (.refl _)).covers stillReady le_rfl fun _ => rfl
  obtain ⟨marked, nothing, lists⟩ := covers.lists_single
  obtain rfl : marked = [] := List.map_eq_nil_iff.mp nothing
  intro copied
  cases lists.complete path stop made copied with
  | inl listed => cases listed
  | inr left =>
      obtain ⟨cut, isCut, _⟩ := left
      cases isCut

/-- For a type that reaches finitely many types, the copy plan and each unfolding of it are
finished.  They copy exactly the storage that a deep copy reaches, in the order of the
paths; what is missing lies behind a reference back, whose path is longer than the number
of unfoldings.  Where a plain copy of the bits suffices, no such storage is reached. -/
theorem copies_all_storage (serving : Serving hooks resolver) (frozen : hooks.frozen = true)
    (has : resolver.table.Has id) (finite : (resolver.reach id).Finite) :
    (∀ place times, Settles (fun stops final => ∃ marked, marked.map Prod.snd = stops ∧
        Lists CopyStop.isMade (CopiedAt hooks final id place) (times + 1) marked)
      (fun fuel => unfoldedCopy hooks fuel id place times) resolver) ∧
    ∀ (fuel index : Nat) (spawn : Spawn) (arg : Expr) (handoff : Handoff) (final : Resolver), arg.type = some id →
      handOff hooks fuel spawn arg index resolver = .ok (some handoff) final → handoff.isBitwise = true →
      ∀ path stop, stop.isMade → ¬ CopiedAt hooks final id (argumentPlace arg index) path stop := by
  refine ⟨fun place times => ?_, fun fuel index spawn arg handoff final typed run bitwise path stop made => ?_⟩
  · apply (unfoldedCopy_settles frozen finite (serving.prepared has) place times).mono
    rintro stops final _ _ ⟨prepared, covers⟩
    exact (covers final (.refl final) prepared.ready).lists_single
  · exact nothing_copied_of_isBitwise serving typed run bitwise made

/-- Messages that hold numbers and may answer another message. -/
def messageTable : TypeTable :=
  TypeTable.after {} [.int, .object "Message" [] {}, .wrap .seq 1, .wrap .ref 2, .wrap .var 2,
    .define 2 { fields := [⟨"items", 3⟩, ⟨"answered", 4⟩] }]

/-- No hooks. -/
def noHooks : Registry where
  frozen := true

theorem messageTable_built : messageTable.Built :=
  TypeTable.Built.empty.after (by decide +kernel)

theorem copies_all_storage_message :
    (reach { table := messageTable } 2).Finite ∧
      Settles (fun stops final => ∃ marked, marked.map Prod.snd = stops ∧
          Lists CopyStop.isMade (CopiedAt noHooks final 2 "message") 3 marked)
        (fun fuel => unfoldedCopy noHooks fuel 2 "message" 2) { table := messageTable } := by
  have serving : Serving noHooks { table := messageTable } := .start messageTable_built
  have closed : leadsToEachOther messageTable [1, 2, 3, 4] = true := by decide +kernel
  have finite := finite_reach serving.intact (List.mem_cons_of_mem 1 List.mem_cons_self) closed
  have isMessage : (messageTable.get? 2).isSome = true := by decide +kernel
  exact ⟨finite, (copies_all_storage serving rfl isMessage finite).1 "message" 2⟩

/-- Storage that can be shared is reached from a type through constituents of any kind,
parameter modes included. -/
inductive ReachesStorage (hooks : Registry) (resolver : Resolver) : TypeId → Prop where
  | storage {id : TypeId} {type : TypeDef} (crossed : Crossed hooks resolver id)
      (isType : resolver.table.get? id = some type) (shared : type.isSharedStorage = true) :
      ReachesStorage hooks resolver id
  | step {id : TypeId} {slots : List Slot} {slot : Slot} {larger : TypeTable} (crossed : Crossed hooks resolver id)
      (parts : TableM.constituents id resolver.table = .ok slots larger) (member : slot ∈ slots)
      (rest : ReachesStorage hooks resolver slot.type) : ReachesStorage hooks resolver id

/-- A message behind a parameter mode. -/
def messageArgument : Expr :=
  .var { type := some 5 } "message" none

theorem crossed_of_noHooks {resolver : Resolver} {id : TypeId} (resolvable : resolver.Resolvable id) :
    Crossed noHooks resolver id where
  resolvable := resolvable
  unhooked entry hook := by
    cases hook with
    | value _ hook => cases hook <;> contradiction
    | copied _ _ _ hook => cases hook <;> contradiction

/-- An argument with a parameter mode is handed over as a plain copy of the bits, although
it reaches storage that can be shared. -/
theorem isBitwise_behind_mode :
    ∃ handoff final, handOff noHooks 9 ⟨{}, "worker", [messageArgument]⟩ messageArgument 0 { table := messageTable } =
        .ok (some handoff) final ∧
      handoff.isBitwise = true ∧ ReachesStorage noHooks final 5 := by
  let copying := handOff noHooks 9 ⟨{}, "worker", [messageArgument]⟩ messageArgument 0
  let final := copying.finish { table := messageTable }
  have answered : ((copying.result? { table := messageTable }).map (Option.map Handoff.isBitwise)) =
      some (some true) := by decide +kernel
  obtain ⟨handoff?, succeeds, given⟩ := Option.map_eq_some_iff.mp answered
  obtain ⟨handoff, rfl, bitwise⟩ := Option.map_eq_some_iff.mp given
  have crossed (id : TypeId) (finite : (isUnresolvable 9 id).result? final = some false) :
      Crossed noHooks final id := crossed_of_noHooks ⟨9, _, run_of_result? finite⟩
  have behindMode : (TableM.constituents 5).result? final.table = some [⟨.pointee, 2⟩] := by decide +kernel
  have inMessage : (TableM.constituents 2).result? final.table =
      some [⟨.field "items", 3⟩, ⟨.field "answered", 4⟩] := by decide +kernel
  have isSequence : final.table.get? 3 = some (.wrap .seq 1) := by decide +kernel
  have items : ReachesStorage noHooks final 3 := .storage (crossed 3 (by decide +kernel)) isSequence rfl
  have message : ReachesStorage noHooks final 2 :=
    .step (crossed 2 (by decide +kernel)) (run_of_result? inMessage) List.mem_cons_self items
  exact ⟨handoff, final, run_of_result? succeeds, bitwise,
    .step (crossed 5 (by decide +kernel)) (run_of_result? behindMode) (List.mem_singleton_self _) message⟩

end Resolver
end LifecycleHooks

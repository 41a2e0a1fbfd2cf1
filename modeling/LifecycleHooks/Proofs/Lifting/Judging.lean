import LifecycleHooks.Proofs.Lifting.Serving
import LifecycleHooks.Proofs.Types.Layers
import LifecycleHooks.Proofs.Lifting.Steadiness
import Mathlib.Data.Set.Card

/-!
# Judging comes to an end

The search for growth follows instances of bounded depth only.  Over the constructors in
use there are finitely many types of a bounded depth, and each is visited once.  A search
may start others, but only for generic objects that are not being judged.
-/

namespace LifecycleHooks

namespace Resolver

open Attempt ResolveM TypeTable

section Heads

variable {resolver : Resolver} {id head : TypeId} {grows : Bool}

theorem Judged.unique {other : Bool} (judged : resolver.Judged id grows)
    (otherwise : resolver.Judged id other) : grows = other := by
  have first := judged.run 0
  rw [otherwise.run 0] at first
  exact (EStateM.Result.ok.inj first).1.symm

theorem Judged.has (judged : resolver.Judged id grows) :
    resolver.table.Has id := by
  have asked : ∃ head, resolver.table.head? id = .ok head := by
    cases judged with
    | headless none => exact ⟨_, none⟩
    | plain some => exact ⟨_, some⟩
    | generic some => exact ⟨_, some⟩
  obtain ⟨head, asked⟩ := asked
  unfold TypeTable.head? at asked
  cases found : resolver.table.get id with
  | error fault =>
      rw [found] at asked
      cases asked
  | ok type => exact has_of_get? (get_eq_ok.mp found)

/-- The verdict on a type is the one on the declared type that it belongs to. -/
theorem Judged.of_head (judged : resolver.Judged id grows) (wellFormed : resolver.table.WellFormed)
    (isHead : (resolver.table.tree id).head? = some head) : resolver.Judged head grows := by
  have same := wellFormed.head?_head judged.has isHead
  cases judged with
  | headless none => exact .headless (same.trans none)
  | plain some isType notGeneric => exact .plain (same.trans some) isType notGeneric
  | generic some isType isGeneric known => exact .generic (same.trans some) isType isGeneric known

theorem Judged.lookup_generic (judged : resolver.Judged head grows) (generic : head ∈ resolver.table.genericObjects) :
    resolver.growth.lookup head = some grows := by
  have asked := head?_of_mem_genericObjects generic
  obtain ⟨object, isObject, params⟩ := generic
  cases judged with
  | headless none => cases none.symm.trans asked
  | plain some isType notGeneric =>
      obtain rfl := Option.some.inj (Except.ok.inj (some.symm.trans asked))
      obtain rfl := Option.some.inj ((get_eq_ok.mp isType).symm.trans isObject)
      exact absurd (List.isEmpty_iff.mp notGeneric) params
  | generic some _ _ known =>
      obtain rfl := Option.some.inj (Except.ok.inj (some.symm.trans asked))
      exact known

theorem Judged.lookup_head (judged : resolver.Judged id grows) (wellFormed : resolver.table.WellFormed)
    (isHead : (resolver.table.tree id).head? = some head) (generic : head ∈ resolver.table.genericObjects) :
    resolver.growth.lookup head = some grows :=
  (judged.of_head wellFormed isHead).lookup_generic generic

theorem Judged.lookup_instance {args : List TypeId} (judged : resolver.Judged id grows)
    (wellFormed : resolver.table.WellFormed) (found : resolver.table.get? id = some (.applied head args)) :
    resolver.growth.lookup head = some grows := by
  obtain ⟨object, isObject, generic, _⟩ := wellFormed.applied id head args found
  refine judged.lookup_head wellFormed ?_ ⟨object, isObject, generic⟩
  rw [wellFormed.tree_eq found]
  rfl

/-- A type is judged to grow with the declared type that it belongs to. -/
theorem Judged.head_grows (judged : resolver.Judged id true) (wellFormed : resolver.table.WellFormed) :
    ∃ head, (resolver.table.tree id).head? = some head ∧ resolver.growth.lookup head = some true := by
  cases judged with
  | generic isHead _ _ known => exact ⟨_, wellFormed.head?_tree isHead, known⟩

end Heads
end Resolver

namespace ResolveM

open Attempt Resolver

/-- A search comes to its end when each visit does and all types that it comes upon lie in a
place that holds only so many of them. -/
theorem search_settles {visit : Nat → TypeId → ResolveM (Option (List TypeId))}
    {invariant : Resolver → Prop} {inside : Resolver → TypeId → Prop} {bound : Nat}
    (bounded : ∀ (resolver : Resolver) (seen : List TypeId), invariant resolver → seen.Nodup →
      (∀ id ∈ seen, inside resolver id) → seen.length ≤ bound)
    (visits : ∀ id resolver, invariant resolver → inside resolver id →
      Settles (fun found later => invariant later ∧ (∀ other, inside resolver other → inside later other) ∧
        ∀ next, found = some next → ∀ other ∈ next, inside later other)
        (fun fuel => visit fuel id) resolver)
    {seen pending : List TypeId} {resolver : Resolver} (holds : invariant resolver)
    (distinct : seen.Nodup) (seenInside : ∀ id ∈ seen, inside resolver id)
    (pendingInside : ∀ id ∈ pending, inside resolver id) :
    Settles (fun _ _ => True) (fun fuel => search visit fuel seen pending) resolver := by
  -- Each visit sees another type; between visits the pending list gets shorter.
  obtain ⟨left, enough⟩ : ∃ left, bound ≤ seen.length + left := ⟨bound, by omega⟩
  induction left using Nat.strong_induction_on generalizing seen pending resolver with
  | h left ih =>
      induction pending with
      | nil => exact Settles.of_succ (settles_pure trivial)
      | cons id pending rest =>
          apply Settles.of_succ
          simp only [search]
          by_cases before : id ∈ seen
          · simp only [if_pos before]
            exact rest fun other member => pendingInside other (List.mem_cons_of_mem id member)
          · simp only [if_neg before]
            apply (visits id resolver holds (pendingInside id List.mem_cons_self)).bind
            rintro found later budget run ⟨laterHolds, keeps, nextInside⟩
            have nowDistinct := List.nodup_cons.mpr ⟨before, distinct⟩
            have nowInside : ∀ other ∈ id :: seen, inside later other := by
              intro other member
              apply keeps
              cases List.mem_cons.mp member with
              | inl same => exact same ▸ pendingInside id List.mem_cons_self
              | inr earlier => exact seenInside other earlier
            have few := bounded later (id :: seen) laterHolds nowDistinct nowInside
            rw [List.length_cons] at few
            cases found with
            | none => exact settles_pure trivial
            | some next =>
                apply ih (left - 1) (by omega) laterHolds nowDistinct nowInside
                · intro other member
                  cases List.mem_append.mp member with
                  | inl behind => exact nextInside next rfl other behind
                  | inr beside => exact keeps other (pendingInside other (List.mem_cons_of_mem id beside))
                · rw [List.length_cons]
                  omega

end ResolveM

namespace TypeTable

variable {table : TypeTable}

/-- The types that the search for growth can come upon: those of bounded depth over the
constructors in use. -/
def shallowTrees (table : TypeTable) : Set TypeTree :=
  {tree | tree.IsOver table.shapes ∧ tree.depth ≤ table.size + nestingLimit}

theorem finite_shallowTrees (table : TypeTable) : table.shallowTrees.Finite :=
  TypeTree.finite_isOver table.finite_shapes _

/-- The constituents of a type that is not too deep are not much deeper. -/
theorem WellFormed.depth_constituent_le (wellFormed : table.WellFormed) {label : TypeLabel}
    {operands : List TypeTree} (shallow : (TypeTree.node label operands).depth ≤ table.size + nestingLimit)
    (applied : ∀ head, label = .applied head → (TypeTree.node label operands).depth ≤ nestingLimit) :
    ∀ part ∈ table.constituentTrees (.node label operands), part.depth ≤ table.size + nestingLimit := by
  intro part member
  have below : ∀ operand ∈ operands, operand.depth < (TypeTree.node label operands).depth :=
    TypeTree.depth_le.mp le_rfl
  cases label with
  | typevar id => simp [constituentTrees] at member
  | named id =>
      simp only [constituentTrees] at member
      split at member
      · rename_i object found
        obtain ⟨slot, inside, rfl⟩ := List.mem_map.mp member
        have has := wellFormed.bodies id object (declared?_eq_some.mp found).1 slot inside
        have := wellFormed.depth_tree_le_size has
        omega
      · rename_i name underlying span found
        obtain rfl := List.mem_singleton.mp member
        have has := (wellFormed.earlier id _ (declared?_eq_some.mp found).1 underlying (by simp [TypeDef.parts])).1
        have := wellFormed.depth_tree_le_size has
        omega
      · simp at member
  | applied head =>
      simp only [constituentTrees] at member
      split at member
      · rename_i object found
        obtain ⟨slot, inside, rfl⟩ := List.mem_map.mp member
        have has := wellFormed.bodies head object (declared?_eq_some.mp found).1 slot inside
        have declared := wellFormed.depth_tree_le_size has
        have limited := applied head rfl
        have bounded : ∀ id tree, assignment object.params operands id = some tree →
            tree.depth ≤ nestingLimit := by
          intro id tree assigned
          have isOperand : (id, tree) ∈ object.params.zip operands := mem_of_lookup assigned
          have := below tree (List.of_mem_zip isOperand).2
          omega
        have := TypeTree.depth_substitute_le bounded (table.tree slot.type)
        omega
      · simp at member
  | _ =>
      have := below part member
      omega

theorem WellFormed.depth_visited_le {larger : TypeTable} (wellFormed : table.WellFormed)
    (wellFormed' : larger.WellFormed) {id : TypeId} (within : larger.Within table.shallowTrees id)
    (shallow : ∀ head args, larger.get? id = some (.applied head args) →
      (larger.tree id).depth ≤ nestingLimit) :
    ∀ part ∈ table.constituentTrees (larger.tree id), part.depth ≤ table.size + nestingLimit := by
  obtain ⟨⟨type, found⟩, _, bounded⟩ := And.intro within.1.exists within.2
  have sameTree := wellFormed'.tree_eq found
  rw [sameTree] at bounded ⊢
  apply wellFormed.depth_constituent_le bounded
  intro head isApplied
  cases type with
  | applied other args => exact sameTree ▸ shallow other args found
  | _ => cases isApplied

end TypeTable

namespace ResolveM

open Attempt Resolver TypeTable

section Judging

variable {resolver : Resolver} {id head : TypeId}

theorem constituents_settles (intact : resolver.Intact) (has : resolver.table.Has id) :
    Settles (fun slots later => TableM.HoldsSlots later.table slots
        (resolver.table.constituentTrees (resolver.table.tree id)))
      (fun _ => onTable (TableM.constituents id)) resolver := by
  obtain ⟨slots, larger, run, _, _, holds⟩ :=
    TableM.constituents_works intact.regular.toWellFormed has
  exact settles_of_ok (fun _ => onTable_eq_ok.mpr ⟨larger, run, rfl⟩) holds

/-- Whether an existing type is an instance that nests too deeply is found by its spelling. -/
theorem isTooDeep_run (intact : resolver.Intact) (has : resolver.table.Has id) :
    ∃ larger, isTooDeep id resolver = .ok ((resolver.table.tree id).instance?.isSome &&
      decide (nestingLimit < (resolver.table.tree id).depth)) { resolver with table := larger } := by
  have wellFormed := intact.regular.toWellFormed
  obtain ⟨type, found⟩ := has.exists
  have fetched : fetch id resolver = .ok type resolver := fetch_eq_ok.mpr ⟨get_eq_ok.mpr found, rfl⟩
  unfold isTooDeep
  rw [bind_run_of_ok fetched]
  cases type with
  | applied head args =>
      obtain ⟨larger, run, _, _⟩ := TableM.nesting_works wellFormed has
      have isInstance := (wellFormed.instance?_tree found).mpr ⟨args, rfl⟩
      refine ⟨larger, ?_⟩
      rw [isInstance, Option.isSome_some, Bool.true_and]
      exact bind_run_of_ok (onTable_eq_ok.mpr ⟨larger, run, rfl⟩)
  | _ =>
      refine ⟨resolver.table, ?_⟩
      rw [wellFormed.tree_eq found]
      rfl

theorem isTooDeep_settles (intact : resolver.Intact) (has : resolver.table.Has id) :
    Settles (fun tooDeep _ => tooDeep = false → ∀ head args, resolver.table.get? id = some (.applied head args) →
        (resolver.table.tree id).depth ≤ nestingLimit)
      (fun _ => isTooDeep id) resolver := by
  obtain ⟨larger, run⟩ := isTooDeep_run intact has
  refine settles_of_ok (fun _ => run) fun shallow head args found => ?_
  rw [(intact.regular.toWellFormed.instance?_tree found).mpr ⟨args, rfl⟩] at shallow
  simpa using shallow

/-- Whether the search goes on behind a type is settled when judging other objects is. -/
theorem isFollowed_settles (has : resolver.table.Has id)
    (judges : ∀ other args, resolver.table.get? id = some (.applied other args) →
      other ∉ resolver.judging → Settles (fun _ _ => True) (fun fuel => growsForever fuel id) resolver) :
    Settles (fun _ _ => True) (fun fuel => isFollowed head fuel id) resolver := by
  obtain ⟨type, found⟩ := has.exists
  have fetched : fetch id resolver = .ok type resolver := fetch_eq_ok.mpr ⟨get_eq_ok.mpr found, rfl⟩
  unfold isFollowed
  refine Settles.after fetched ?_
  cases type with
  | applied other args =>
      by_cases own : other = head
      · simp only [if_pos own]
        exact settles_pure trivial
      · simp only [if_neg own]
        refine Settles.after (get_run resolver) ?_
        by_cases busy : other ∈ resolver.judging
        · simp only [if_pos busy]
          exact settles_pure trivial
        · simp only [if_neg busy]
          exact (judges other args found busy).bind fun _ _ _ _ _ => settles_pure trivial
  | _ => exact settles_pure trivial

/-- A visit of the search for growth stays among the types of bounded depth. -/
theorem visitForGrowth_settles {table : TypeTable} {busy : List TypeId} (wellFormed : table.WellFormed)
    (intact : resolver.Intact) (unfolds : table.Unfolds resolver.table) (sameBusy : resolver.judging = busy)
    (within : resolver.table.Within table.shallowTrees id)
    (judges : ∀ other args, resolver.table.get? id = some (.applied other args) →
      other ∉ busy → Settles (fun _ _ => True) (fun fuel => growsForever fuel id) resolver) :
    Settles (fun found later => (later.Intact ∧ table.Unfolds later.table ∧ later.judging = busy) ∧
        (∀ other, resolver.table.Within table.shallowTrees other → later.table.Within table.shallowTrees other) ∧
        ∀ next, found = some next → ∀ other ∈ next, later.table.Within table.shallowTrees other)
      (fun fuel => visitForGrowth head fuel id) resolver := by
  have keeps {later : Resolver} (judges : resolver.Judges later) :
      (later.Intact ∧ table.Unfolds later.table ∧ later.judging = busy) ∧
        ∀ other, resolver.table.Within table.shallowTrees other → later.table.Within table.shallowTrees other := by
    obtain ⟨laterIntact, laterUnfolds⟩ := judges.staysIntact intact
    exact ⟨⟨laterIntact, unfolds.trans laterUnfolds, judges.judging.trans sameBusy⟩,
      fun other => intact.regular.within_extends judges.table⟩
  apply (isFollowed_settles within.1 (sameBusy ▸ judges)).bind
  intro followed middle budget run _
  have followedJudges := (isFollowed_judges (growsForever_judges budget) head id).of_ok run
  obtain ⟨⟨middleIntact, middleUnfolds, _⟩, middleWithin⟩ := keeps followedJudges
  cases followed with
  | false =>
      obtain ⟨invariant, inside⟩ := keeps followedJudges
      exact settles_pure ⟨invariant, inside, by simp⟩
  | true =>
      have middleHas := (middleWithin id within).1
      apply (isTooDeep_settles middleIntact middleHas).bind
      intro tooDeep last _ deepRun shallow
      have deepJudges := trans_of Judges followedJudges ((isTooDeep_judges id).of_ok deepRun)
      obtain ⟨⟨lastIntact, lastUnfolds, _⟩, lastWithin⟩ := keeps deepJudges
      cases tooDeep with
      | true =>
          obtain ⟨invariant, inside⟩ := keeps deepJudges
          exact settles_pure ⟨invariant, inside, by simp⟩
      | false =>
          have lastHas := (lastWithin id within).1
          apply (constituents_settles lastIntact lastHas).bind
          intro slots final _ slotsRun holds
          have finalJudges := trans_of Judges deepJudges ((constituents_judges id).of_ok slotsRun)
          obtain ⟨invariant, inside⟩ := keeps finalJudges
          refine settles_pure ⟨invariant, inside, fun next isNext other member => ?_⟩
          obtain rfl := Option.some.inj isNext
          obtain ⟨slot, isSlot, rfl⟩ := mem_typesBackwards.mp member
          have isPart : final.table.tree slot.type ∈ table.constituentTrees (middle.table.tree id) := by
            rw [← wellFormed.constituentTrees_unfolds lastUnfolds,
              ← middleIntact.regular.tree_extends ((isTooDeep_judges id).of_ok deepRun).table middleHas, ← holds.1]
            exact List.mem_map_of_mem isSlot
          refine ⟨holds.2 slot isSlot, ?_, ?_⟩
          · exact (invariant.1.regular.tree_isOver (holds.2 slot isSlot)).mono invariant.2.1.shapes
          · exact wellFormed.depth_visited_le middleIntact.regular.toWellFormed (middleWithin id within)
              (shallow rfl) _ isPart

/-- The search for growth comes to its end when judging the objects that are not being
judged does. -/
theorem searchGrowth_settles (intact : resolver.Intact) (has : resolver.table.Has head)
    (judges : ∀ (later : Resolver) (id other : TypeId) (args : List TypeId), later.Intact →
      resolver.table.Unfolds later.table → later.judging = resolver.judging →
      later.table.get? id = some (.applied other args) → other ∉ resolver.judging →
      Settles (fun _ _ => True) (fun fuel => growsForever fuel id) later) :
    Settles (fun _ _ => True) (fun fuel => searchGrowth fuel head [] [head]) resolver := by
  simp only [searchGrowth_eq_search]
  have wellFormed := intact.regular.toWellFormed
  have bounded (later : Resolver) (seen : List TypeId)
      (holds : later.Intact ∧ resolver.table.Unfolds later.table ∧ later.judging = resolver.judging)
      (distinct : seen.Nodup) (inside : ∀ id ∈ seen, later.table.Within resolver.table.shallowTrees id) :
      seen.length ≤ resolver.table.shallowTrees.ncard :=
    holds.1.regular.length_le_ncard resolver.table.finite_shallowTrees distinct inside
  refine search_settles bounded (fun id later holds within => ?_) ⟨intact, .refl _, rfl⟩ List.nodup_nil
    (by simp) ?_
  · obtain ⟨laterIntact, unfolds, sameBusy⟩ := holds
    exact visitForGrowth_settles wellFormed laterIntact unfolds sameBusy within
      fun other args => judges later id other args laterIntact unfolds sameBusy
  · intro other member
    obtain rfl := List.mem_singleton.mp member
    refine ⟨has, wellFormed.tree_isOver has, ?_⟩
    have := wellFormed.depth_tree_le_size has
    omega

/-- The generic object behind a type that has one. -/
theorem isObject_of_typeParams {type : TypeDef} (isHead : resolver.table.get? head = some type)
    (generic : type.typeParams.isEmpty = false) : head ∈ resolver.table.objects := by
  cases type with
  | object object => exact ⟨object, declared?_eq_some.mpr ⟨isHead, rfl⟩⟩
  | _ => cases generic

theorem head_known {answer : Option TypeId} (intact : resolver.Intact) (has : resolver.table.Has id)
    (asked : resolver.table.head? id = .ok answer) : ∀ head, answer = some head → resolver.table.Has head := by
  rintro head rfl
  obtain ⟨type, found⟩ := has.exists
  unfold TypeTable.head? at asked
  rw [get_eq_ok.mpr found] at asked
  cases type with
  | applied other args =>
      obtain rfl := Option.some.inj (Except.ok.inj asked)
      exact (intact.regular.earlier id _ found other (by simp [TypeDef.parts])).1
  | object object => exact Option.some.inj (Except.ok.inj asked) ▸ has
  | distinct name underlying span => exact Option.some.inj (Except.ok.inj asked) ▸ has
  | _ => cases Except.ok.inj asked

/-- Judging the generic object behind a type comes to an end, whichever other objects are
being judged. -/
theorem growsForever_settles (intact : resolver.Intact) (has : resolver.table.Has id)
    (distinct : resolver.judging.Nodup) (objects : ∀ other ∈ resolver.judging, other ∈ resolver.table.objects)
    (free : ∀ head, resolver.table.head? id = .ok (some head) → head ∉ resolver.judging) :
    Settles (fun _ _ => True) (fun fuel => growsForever fuel id) resolver := by
  -- Each nested search judges another object.
  obtain ⟨left, enough⟩ : ∃ left, resolver.table.objects.ncard ≤ resolver.judging.length + left :=
    ⟨_, Nat.le_add_left _ _⟩
  induction left using Nat.strong_induction_on generalizing resolver id with
  | h left ih =>
      obtain ⟨type, found⟩ := has.exists
      obtain ⟨answer, asked⟩ := head?_answers found
      have heads := head_known intact has asked
      apply Settles.of_succ
      simp only [growsForever]
      refine Settles.after (ask_eq_ok.mpr ⟨asked, rfl⟩) ?_
      cases answer with
      | none => exact settles_pure trivial
      | some head =>
          obtain ⟨type, isHead⟩ := (heads head rfl).exists
          refine Settles.after (fetch_eq_ok.mpr ⟨get_eq_ok.mpr isHead, rfl⟩) ?_
          cases generic : type.typeParams.isEmpty with
          | true => exact settles_pure trivial
          | false =>
              refine Settles.after (get_run resolver) ?_
              cases resolver.growth.lookup head with
              | some known => exact settles_pure trivial
              | none =>
                  refine Settles.after (modify_run _ resolver) ?_
                  have busy := free head asked
                  have begun : StaysIntact resolver { resolver with judging := head :: resolver.judging } :=
                    staysIntact_of_eq rfl rfl rfl
                  have nowDistinct := List.nodup_cons.mpr ⟨busy, distinct⟩
                  have nowObjects := List.forall_mem_cons.mpr
                    ⟨isObject_of_typeParams isHead generic, objects⟩
                  have room := length_le_ncard resolver.table.finite_objects nowDistinct nowObjects
                  rw [List.length_cons] at room
                  have searched : Settles (fun _ _ => True) (fun fuel => searchGrowth fuel head [] [head])
                      { resolver with judging := head :: resolver.judging } := by
                    apply searchGrowth_settles (begun intact).1 (has_of_get? isHead)
                    intro later other another args laterIntact unfolds sameBusy isApplied laterFree
                    have sameObjects : later.table.objects = resolver.table.objects := unfolds.objects_eq
                    apply ih (left - 1) (by omega) laterIntact (has_of_get? isApplied)
                    · exact sameBusy ▸ nowDistinct
                    · rw [sameBusy, sameObjects]
                      exact nowObjects
                    · intro third asked
                      unfold TypeTable.head? at asked
                      rw [get_eq_ok.mpr isApplied] at asked
                      obtain rfl := Option.some.inj (Except.ok.inj asked)
                      exact sameBusy ▸ laterFree
                    · rw [sameObjects, sameBusy, List.length_cons]
                      omega
                  have ended : Settles (fun _ _ => True) (fun fuel =>
                      andFinally (searchGrowth fuel head [] [head]) fun resolver =>
                        { resolver with judging := resolver.judging.erase head })
                      { resolver with judging := head :: resolver.judging } :=
                    searched.andFinally fun _ _ _ _ _ => trivial
                  exact ended.bind fun _ _ _ _ _ => settles_pure trivial

end Judging
end ResolveM
end LifecycleHooks

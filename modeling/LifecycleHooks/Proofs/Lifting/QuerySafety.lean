import LifecycleHooks.Proofs.Lifting.Planning
import LifecycleHooks.Proofs.Program.Declaring

/-!
# Queries about existing types are safe

A resolver is whole when its table is proper and all it holds is about existing types.
Whatever is asked about existing types, a whole resolver answers with existing types and
stays whole, or uses up its budget; there is no other fault.
-/

namespace LifecycleHooks

open Attempt

namespace Resolver

/-- A resolver over a proper table that holds existing types. -/
structure Whole (resolver : Resolver) : Prop where
  proper : resolver.table.Proper
  links : ∀ link ∈ resolver.links, resolver.table.Has link.1
  cycles : ∀ entry ∈ resolver.cycles, ∀ member ∈ entry.2, resolver.table.Has member
  operations : ∀ entry ∈ resolver.operations, ∀ steps, entry.2 = .lifted steps →
    ∀ slot ∈ steps, resolver.table.Has slot.type
  reports : ∀ diagnostic ∈ resolver.diagnostics, ¬ diagnostic.IsInternal

/-- All types stay in place. -/
def KeepsTypes (resolver later : Resolver) : Prop := resolver.table.Extends later.table

instance : IsPreorder Resolver KeepsTypes where
  refl resolver := .refl resolver.table
  trans _ _ _ first second := TypeTable.Extends.trans first second

variable {resolver later : Resolver} {id : TypeId}

theorem KeepsTypes.has (keeps : resolver.KeepsTypes later) (has : resolver.table.Has id) : later.table.Has id :=
  TypeTable.Has.extends_ has keeps

/-- What is neither a table nor holds types does not matter. -/
theorem Whole.of_eq (whole : resolver.Whole) (table : later.table = resolver.table)
    (links : later.links = resolver.links) (cycles : later.cycles = resolver.cycles)
    (operations : later.operations = resolver.operations) (diagnostics : later.diagnostics = resolver.diagnostics) :
    later.Whole where
  proper := table ▸ whole.proper
  links := links ▸ table ▸ whole.links
  cycles := cycles ▸ table ▸ whole.cycles
  operations := operations ▸ table ▸ whole.operations
  reports := diagnostics ▸ whole.reports

theorem Whole.intact (whole : resolver.Whole) : resolver.Intact :=
  ⟨whole.proper.toRegular, whole.links, whole.cycles⟩

theorem Whole.spells (whole : resolver.Whole) (has : resolver.table.Has id) :
    ∃ text, resolver.table.spell id = .ok text :=
  TypeTable.spell_answers whole.proper.toWellFormed whole.proper.paramsKnown has

end Resolver

namespace ResolveM

open Resolver TypeTable

variable {resolver : Resolver} {id : TypeId}

section Asking

theorem onTable_yields {Result : Type} {tells : Result → TypeTable → Prop} {action : TableM Result}
    (whole : resolver.Whole) (yields : Yields Proper TypeTable.Extends tells action resolver.table) :
    Yields Whole KeepsTypes (fun result later => tells result later.table) (onTable action) resolver :=
  Yields.onPart yields
    (fun _ proper extends_ =>
      ⟨⟨proper, fun link member => (whole.links link member).extends_ extends_,
        fun entry member other inside => (whole.cycles entry member other inside).extends_ extends_,
        fun entry member steps lifted slot inside =>
          (whole.operations entry member steps lifted slot inside).extends_ extends_,
        whole.reports⟩, extends_⟩)
    (fun _ => rfl)

theorem ask_run {Result : Type} {question : TypeTable → Except Fault Result} {answer : Result}
    (answers : question resolver.table = .ok answer) : ask question resolver = .ok answer resolver :=
  ask_eq_ok.mpr ⟨answers, rfl⟩

theorem fetch_run {type : TypeDef} (found : resolver.table.get? id = some type) :
    fetch id resolver = .ok type resolver :=
  ask_run (get_eq_ok.mpr found)

theorem report_yields {diagnostic : Diagnostic} (whole : resolver.Whole) (notInternal : ¬ diagnostic.IsInternal) :
    Yields Whole KeepsTypes (fun _ _ => True) (report diagnostic) resolver := by
  refine yields_modify ⟨whole.proper, whole.links, whole.cycles, whole.operations, ?_⟩ (.refl resolver.table) trivial
  exact List.forall_mem_append.mpr ⟨whole.reports, by simpa using notInternal⟩

theorem spell_yields (whole : resolver.Whole) (has : resolver.table.Has id) :
    Yields Whole KeepsTypes (fun _ _ => True) (ask (·.spell id)) resolver := by
  obtain ⟨text, spells⟩ := whole.spells has
  exact safe_of_ok (ask_run spells) ⟨⟨whole, .refl resolver.table⟩, trivial⟩

theorem constituents_yields (whole : resolver.Whole) (has : resolver.table.Has id) :
    Yields Whole KeepsTypes (fun slots later => ∀ slot ∈ slots, later.table.Has slot.type)
      (onTable (TableM.constituents id)) resolver :=
  @onTable_yields resolver (List Slot) (fun slots table => ∀ slot ∈ slots, table.Has slot.type) _ whole
    (TableM.constituents_yields whole.proper has)

end Asking

section Judging

theorem isTooDeep_yields (whole : resolver.Whole) (has : resolver.table.Has id) :
    Yields Whole KeepsTypes (fun _ _ => True) (isTooDeep id) resolver := by
  obtain ⟨type, found⟩ := has.exists
  refine Yields.read (fetch_run found) ?_
  cases type with
  | applied head args =>
      have nests := @onTable_yields resolver Nat (fun _ _ => True) _ whole (TableM.nesting_yields whole.proper has)
      exact nests.bind fun _ _ whole _ _ => yields_pure whole trivial
  | _ => exact yields_pure whole trivial

/-- A search is safe when its visits are. -/
theorem search_yields {visit : Nat → TypeId → ResolveM (Option (List TypeId))} {fuel : Nat}
    (visits : ∀ less < fuel, ∀ id (resolver : Resolver), resolver.Whole → resolver.table.Has id →
      Yields Whole KeepsTypes (fun found later => ∀ next ∈ found, ∀ other ∈ next, later.table.Has other)
        (visit less id) resolver)
    (seen : List TypeId) {pending : List TypeId} (whole : resolver.Whole)
    (has : ∀ id ∈ pending, resolver.table.Has id) :
    Yields Whole KeepsTypes (fun _ _ => True) (search visit fuel seen pending) resolver := by
  induction fuel generalizing seen pending resolver with
  | zero => exact yields_exhausted
  | succ fuel ih =>
      have rest {seen pending : List TypeId} {resolver : Resolver} :=
        @ih resolver (fun less bound => visits less (by omega)) seen pending
      cases pending with
      | nil => exact yields_pure whole trivial
      | cons id pending =>
          obtain ⟨hasFirst, others⟩ := List.forall_mem_cons.mp has
          rw [search]
          split
          · exact rest whole others
          · apply (visits fuel (by omega) id resolver whole hasFirst).bind
            intro found later whole keeps inside
            cases found with
            | none => exact yields_pure whole trivial
            | some next =>
                refine rest whole (List.forall_mem_append.mpr ⟨inside next rfl, ?_⟩)
                exact fun other member => keeps.has (others other member)

theorem isFollowed_yields {head : TypeId} {fuel : Nat} (whole : resolver.Whole) (has : resolver.table.Has id)
    (judges : Yields Whole KeepsTypes (fun _ _ => True) (growsForever fuel id) resolver) :
    Yields Whole KeepsTypes (fun _ _ => True) (isFollowed head fuel id) resolver := by
  obtain ⟨type, found⟩ := has.exists
  refine Yields.read (fetch_run found) ?_
  cases type with
  | applied other args =>
      dsimp only
      split
      · exact yields_pure whole trivial
      · refine Yields.read (get_run resolver) ?_
        split
        · exact yields_pure whole trivial
        · exact judges.bind fun _ _ whole _ _ => yields_pure whole trivial
  | _ => exact yields_pure whole trivial

theorem visitForGrowth_yields {head : TypeId} {fuel : Nat} (whole : resolver.Whole) (has : resolver.table.Has id)
    (judges : Yields Whole KeepsTypes (fun _ _ => True) (growsForever fuel id) resolver) :
    Yields Whole KeepsTypes (fun found later => ∀ next ∈ found, ∀ other ∈ next, later.table.Has other)
      (visitForGrowth head fuel id) resolver := by
  apply (isFollowed_yields whole has judges).bind
  intro followed middle whole keeps _
  cases followed with
  | false => exact yields_pure whole (by simp)
  | true =>
      have has := keeps.has has
      apply (isTooDeep_yields whole has).bind
      intro tooDeep later whole keeps _
      cases tooDeep with
      | true => exact yields_pure whole (by simp)
      | false =>
          apply (constituents_yields whole (keeps.has has)).bind
          intro slots last whole _ inside
          refine yields_pure whole fun next isNext other member => ?_
          obtain rfl := Option.mem_some.mp isNext
          obtain ⟨slot, isSlot, rfl⟩ := mem_typesBackwards.mp member
          exact inside slot isSlot

/-- A search for growth is safe when the judgements of other objects, with less budget, are. -/
theorem searchGrowth_yields {head : TypeId} {fuel : Nat} (whole : resolver.Whole) (has : resolver.table.Has head)
    (judges : ∀ less < fuel, ∀ id (resolver : Resolver), resolver.Whole → resolver.table.Has id →
      Yields Whole KeepsTypes (fun _ _ => True) (growsForever less id) resolver) :
    Yields Whole KeepsTypes (fun _ _ => True) (searchGrowth fuel head [] [head]) resolver := by
  rw [searchGrowth_eq_search]
  refine search_yields (fun less bound id resolver whole has => ?_) [] whole (by simpa using has)
  exact visitForGrowth_yields whole has (judges less bound id resolver whole has)

/-- Judging the generic object behind an existing type is safe. -/
theorem growsForever_yields (fuel : Nat) (whole : resolver.Whole) (has : resolver.table.Has id) :
    Yields Whole KeepsTypes (fun _ _ => True) (growsForever fuel id) resolver := by
  induction fuel using Nat.strong_induction_on generalizing resolver id with
  | h fuel ih =>
      cases fuel with
      | zero =>
          rw [growsForever]
          exact yields_exhausted
      | succ fuel =>
          obtain ⟨type, found⟩ := has.exists
          obtain ⟨answer, asked⟩ := head?_answers found
          rw [growsForever]
          refine Yields.read (ask_run asked) ?_
          cases answer with
          | none => exact yields_pure whole trivial
          | some head =>
              have hasHead := head_known whole.intact has asked head rfl
              obtain ⟨headType, isHead⟩ := hasHead.exists
              refine Yields.read (fetch_run isHead) ?_
              split
              · exact yields_pure whole trivial
              · refine Yields.read (get_run resolver) ?_
                split
                · exact yields_pure whole trivial
                · have begin : Yields Whole KeepsTypes (fun _ _ => True) (beginJudging head) resolver :=
                    yields_modify (whole.of_eq rfl rfl rfl rfl rfl) (.refl resolver.table) trivial
                  apply begin.bind
                  intro _ begun whole keeps _
                  have searches : Yields Whole KeepsTypes (fun _ _ => True)
                      (searchGrowth fuel head [] [head]) begun :=
                    searchGrowth_yields whole (keeps.has hasHead)
                      fun less bound id resolver whole has => ih less (by omega) whole has
                  have ends : Yields Whole KeepsTypes (fun _ _ => True)
                      ((searchGrowth fuel head [] [head]).andFinally fun resolver =>
                        { resolver with judging := resolver.judging.erase head }) begun :=
                    searches.andFinally fun _ middle whole _ =>
                      ⟨whole.of_eq rfl rfl rfl rfl rfl, refl_of KeepsTypes middle, trivial⟩
                  apply ends.bind
                  intro grows searched whole _ _
                  have keep : Yields Whole KeepsTypes (fun _ _ => True) (modify fun resolver : Resolver =>
                      { resolver with growth := (head, grows) :: resolver.growth }) searched :=
                    yields_modify (whole.of_eq rfl rfl rfl rfl rfl) (.refl searched.table) trivial
                  exact keep.bind fun _ _ whole _ _ => yields_pure whole trivial

end Judging

section Exploring

theorem byValueParts_yields (fuel : Nat) (whole : resolver.Whole) (has : resolver.table.Has id) :
    Yields Whole KeepsTypes (fun parts later => ∀ part ∈ parts, later.table.Has part)
      (byValueParts fuel id) resolver := by
  apply (growsForever_yields fuel whole has).bind
  intro grows middle whole keeps _
  cases grows with
  | true => exact yields_pure whole (by simp)
  | false =>
      have has := keeps.has has
      obtain ⟨type, found⟩ := has.exists
      refine Yields.read (fetch_run found) ?_
      cases containsByValue type with
      | false => exact yields_pure whole (by simp)
      | true =>
          apply (constituents_yields whole has).bind
          intro slots later whole _ inside
          refine yields_pure whole fun part member => ?_
          obtain ⟨slot, isSlot, rfl⟩ := List.mem_map.mp member
          exact inside slot isSlot

theorem explore_yields (fuel : Nat) (whole : resolver.Whole) (has : resolver.table.Has id) :
    Yields Whole KeepsTypes (fun _ _ => True) (explore fuel id) resolver := by
  induction fuel generalizing resolver id with
  | zero => exact yields_exhausted
  | succ fuel ih =>
      unfold explore
      have begin : Yields Whole KeepsTypes (fun _ _ => True) (modify fun resolver : Resolver =>
          { resolver with visited := id :: resolver.visited, trail := id :: resolver.trail }) resolver :=
        yields_modify (whole.of_eq rfl rfl rfl rfl rfl) (.refl resolver.table) trivial
      apply begin.bind
      intro _ begun whole begins _
      have has := begins.has has
      apply (byValueParts_yields fuel whole has).bind
      intro parts middle whole keeps inside
      have links : ∀ link ∈ middle.links ++ [(id, parts)], middle.table.Has link.1 :=
        List.forall_mem_append.mpr ⟨whole.links, by simpa using keeps.has has⟩
      have link : Yields Whole KeepsTypes (fun _ _ => True) (modify fun resolver : Resolver =>
          { resolver with links := resolver.links ++ [(id, parts)] }) middle :=
        yields_modify ⟨whole.proper, links, whole.cycles, whole.operations, whole.reports⟩
          (.refl middle.table) trivial
      apply link.bind
      intro _ linked whole keeps _
      have follows : Yields Whole KeepsTypes (fun _ _ => True) (parts.forM fun part => do
          if part ∉ (← get).visited then
            explore fuel part) linked := by
        refine yields_forM (fun part member later whole onwards => ?_) whole
        refine Yields.read (get_run later) ?_
        split
        · exact ih whole (onwards.has (keeps.has (inside part member)))
        · exact yields_pure whole trivial
      apply follows.bind
      intro _ last whole _ _
      exact yields_modify (whole.of_eq rfl rfl rfl rfl rfl) (.refl last.table) trivial

/-- An exploration settles cycles of existing types. -/
theorem exploreOnce_yields (fuel : Nat) (whole : resolver.Whole) (has : resolver.table.Has id) :
    Yields Whole KeepsTypes (fun _ _ => True) (exploreOnce fuel id) resolver := by
  refine Yields.read (get_run resolver) ?_
  split
  · refine (explore_yields fuel whole has).andFinally fun _ middle whole _ => ?_
    have settled := (settle_staysIntact middle whole.intact).1
    exact ⟨⟨whole.proper, settled.links, settled.cycles, whole.operations, whole.reports⟩,
      refl_of KeepsTypes middle, trivial⟩
  · exact yields_pure whole trivial

theorem reportGrowth_yields (whole : resolver.Whole) (has : resolver.table.Has id) :
    Yields Whole KeepsTypes (fun _ _ => True) (reportGrowth id) resolver := by
  refine Yields.read (get_run resolver) ?_
  split
  · have once : Yields Whole KeepsTypes (fun _ _ => True) (modify fun resolver : Resolver =>
        { resolver with reported := id :: resolver.reported }) resolver :=
      yields_modify (whole.of_eq rfl rfl rfl rfl rfl) (.refl resolver.table) trivial
    apply once.bind
    intro _ middle whole keeps _
    have has := keeps.has has
    obtain ⟨name, spells⟩ := whole.spells has
    obtain ⟨span, declared⟩ := declaredAt_answers whole.proper.toWellFormed has
    refine Yields.read (ask_run spells) ?_
    refine Yields.read (ask_run declared) ?_
    exact report_yields whole (by simp [Diagnostic.IsInternal])
  · exact yields_pure whole trivial

theorem reportCycle_yields {cycle : List TypeId} (whole : resolver.Whole) (has : resolver.table.Has id)
    (members : ∀ member ∈ cycle, resolver.table.Has member) :
    Yields Whole KeepsTypes (fun _ _ => True) (reportCycle id cycle) resolver := by
  refine Yields.read (get_run resolver) ?_
  split
  · have once : Yields Whole KeepsTypes (fun _ _ => True) (modify fun resolver : Resolver =>
        { resolver with reported := cycle ++ resolver.reported }) resolver :=
      yields_modify (whole.of_eq rfl rfl rfl rfl rfl) (.refl resolver.table) trivial
    apply once.bind
    intro _ middle whole keeps _
    have names := yields_mapM_each (fun member inside later whole onwards =>
      spell_yields whole (onwards.has (keeps.has (members member inside)))) whole
    apply names.bind
    intro names later whole onwards _
    obtain ⟨span, declared⟩ := declaredAt_answers whole.proper.toWellFormed (onwards.has (keeps.has has))
    refine Yields.read (ask_run declared) ?_
    exact report_yields whole (by simp [Diagnostic.IsInternal])
  · exact yields_pure whole trivial

/-- Whether an existing type has a finite structure is told. -/
theorem isUnresolvable_yields (fuel : Nat) (whole : resolver.Whole) (has : resolver.table.Has id) :
    Yields Whole KeepsTypes (fun _ _ => True) (isUnresolvable fuel id) resolver := by
  apply (growsForever_yields fuel whole has).bind
  intro grows middle whole keeps _
  have has := keeps.has has
  cases grows with
  | true =>
      obtain ⟨type, found⟩ := has.exists
      obtain ⟨answer, asked⟩ := head?_answers found
      refine Yields.read (ask_run asked) ?_
      have hasBlamed : middle.table.Has (answer.getD id) := by
        cases answer with
        | none => exact has
        | some head => exact head_known whole.intact has asked head rfl
      exact (reportGrowth_yields whole hasBlamed).bind fun _ _ whole _ _ => yields_pure whole trivial
  | false =>
      apply (exploreOnce_yields fuel whole has).bind
      intro _ later whole keeps _
      refine Yields.read (get_run later) ?_
      cases onCycle : later.cycles.lookup id with
      | none => exact yields_pure whole trivial
      | some cycle =>
          have members := whole.cycles _ (mem_of_lookup onCycle)
          exact (reportCycle_yields whole (keeps.has has) members).bind fun _ _ whole _ _ => yields_pure whole trivial

end Exploring

section Resolving

variable {hooks : Registry} {kind : OpKind}

theorem governingHook?_run (whole : resolver.Whole) (hooks : Registry) (kind : OpKind)
    (has : resolver.table.Has id) : ∃ hook, ask (·.governingHook? hooks id kind) resolver = .ok hook resolver := by
  obtain ⟨hook, asked⟩ := governingHook?_answers whole.proper.toWellFormed hooks kind has
  exact ⟨hook, ask_run asked⟩

theorem relevantSlots_yields (whole : resolver.Whole) (has : resolver.table.Has id) :
    Yields Whole KeepsTypes (fun slots later => ∀ slot ∈ slots, later.table.Has slot.type)
      (relevantSlots id kind) resolver := by
  obtain ⟨type, found⟩ := has.exists
  refine Yields.read (fetch_run found) ?_
  split
  · exact constituents_yields whole has
  · exact yields_pure whole (by simp)

theorem visitForHook_yields (fuel : Nat) (whole : resolver.Whole) (has : resolver.table.Has id) :
    Yields Whole KeepsTypes (fun found later => ∀ next ∈ found, ∀ other ∈ next, later.table.Has other)
      (visitForHook hooks kind fuel id) resolver := by
  apply (isUnresolvable_yields fuel whole has).bind
  intro unresolvable middle whole keeps _
  have has := keeps.has has
  cases unresolvable with
  | true => exact yields_pure whole (by simp)
  | false =>
      refine Yields.read (known?_run middle id kind) ?_
      cases middle.operations.lookup (id, kind) with
      | some outcome => cases outcome <;> exact yields_pure whole (by simp [Outcome.isBuiltIn])
      | none =>
          obtain ⟨hook, asked⟩ := governingHook?_run whole hooks kind has
          refine Yields.read asked ?_
          cases hook with
          | some entry => exact yields_pure whole (by simp)
          | none =>
              apply (relevantSlots_yields whole has).bind
              intro slots later whole _ inside
              refine yields_pure whole fun next isNext other member => ?_
              obtain rfl := Option.mem_some.mp isNext
              obtain ⟨slot, isSlot, rfl⟩ := mem_typesBackwards.mp member
              exact inside slot isSlot

theorem reachesHook_yields (fuel : Nat) (whole : resolver.Whole) (has : resolver.table.Has id) :
    Yields Whole KeepsTypes (fun _ _ => True) (reachesHook hooks fuel id kind) resolver := by
  refine Yields.read (known?_run resolver id kind) ?_
  cases resolver.operations.lookup (id, kind) with
  | some outcome => exact yields_pure whole trivial
  | none =>
      simp only [searchHook_eq_search]
      exact search_yields (fun _ _ _ _ whole has => visitForHook_yields _ whole has) [] whole (by simpa using has)

/-- What an operation is lifted from exists. -/
def LiftsKnown (outcome : Outcome) (resolver : Resolver) : Prop :=
  ∀ steps, outcome = .lifted steps → ∀ slot ∈ steps, resolver.table.Has slot.type

theorem determine_yields (fuel : Nat) (whole : resolver.Whole) (has : resolver.table.Has id) :
    Yields Whole KeepsTypes LiftsKnown (determine hooks fuel id kind) resolver := by
  apply (isUnresolvable_yields fuel whole has).bind
  intro unresolvable middle whole keeps _
  have has := keeps.has has
  cases unresolvable with
  | true => exact yields_pure whole (by simp [LiftsKnown])
  | false =>
      obtain ⟨hook, asked⟩ := governingHook?_run whole hooks kind has
      refine Yields.read asked ?_
      cases hook with
      | some entry => exact yields_pure whole (by simp [LiftsKnown])
      | none =>
          apply (relevantSlots_yields whole has).bind
          intro slots later whole keeps inside
          split
          · exact yields_pure whole (by simp [LiftsKnown])
          · apply (reachesHook_yields fuel whole (keeps.has has)).bind
            intro reaches reached whole keeps _
            cases reaches with
            | false => exact yields_pure whole (by simp [LiftsKnown])
            | true =>
                have filters : Yields Whole KeepsTypes (fun steps _ => ∀ slot ∈ steps, slot ∈ slots)
                    (slots.filterM fun slot => reachesHook hooks fuel slot.type kind) reached :=
                  yields_filterM (fun slot member last whole onwards =>
                    reachesHook_yields fuel whole (onwards.has (keeps.has (inside slot member)))) whole
                apply filters.bind
                intro steps last whole onwards chosen
                refine yields_pure whole fun ordered isLifted slot member => ?_
                obtain rfl := Outcome.lifted.inj isLifted
                exact onwards.has (keeps.has (inside slot (chosen slot (mem_orderSteps.mp member))))

/-- The effective operation of every existing type is found. -/
theorem resolve_yields (frozen : hooks.frozen = true) (fuel : Nat) (kind : OpKind) (whole : resolver.Whole)
    (has : resolver.table.Has id) :
    Yields Whole KeepsTypes (fun operation => LiftsKnown operation.outcome) (resolve hooks fuel id kind) resolver := by
  unfold resolve
  rw [frozen]
  refine Yields.read (known?_run resolver id kind) ?_
  cases kept : resolver.operations.lookup (id, kind) with
  | some outcome => exact yields_pure whole (whole.operations _ (mem_of_lookup kept))
  | none =>
      apply (determine_yields fuel whole has).bind
      intro outcome later whole _ known
      have operations : ∀ entry ∈ ((id, kind), outcome) :: later.operations, ∀ steps, entry.2 = .lifted steps →
          ∀ slot ∈ steps, later.table.Has slot.type :=
        List.forall_mem_cons.mpr ⟨known, whole.operations⟩
      have keep : Yields Whole KeepsTypes (fun _ => LiftsKnown outcome) (modify fun resolver : Resolver =>
          { resolver with operations := ((id, kind), outcome) :: resolver.operations }) later :=
        yields_modify ⟨whole.proper, whole.links, whole.cycles, operations, whole.reports⟩ (.refl later.table) known
      exact keep.bind fun _ _ whole _ known => yields_pure whole known

end Resolving

section Planning

variable {hooks : Registry}

theorem convertedPlace_yields (whole : resolver.Whole) (has : resolver.table.Has id) (place : String) :
    Yields Whole KeepsTypes (fun _ _ => True) (convertedPlace id place) resolver :=
  (spell_yields whole has).bind fun _ _ whole _ _ => yields_pure whole trivial

theorem slotPlace_yields {slot : Slot} (whole : resolver.Whole) (has : resolver.table.Has slot.type)
    (place : String) : Yields Whole KeepsTypes (fun _ _ => True) (slotPlace slot place) resolver := by
  obtain ⟨text, run⟩ := slotPlace_answers whole.intact has place
  exact safe_of_ok run ⟨⟨whole, refl_of KeepsTypes resolver⟩, trivial⟩

/-- The base that is destroyed after the hook of a type exists. -/
theorem destroyedBase?_yields (frozen : hooks.frozen = true) (fuel : Nat) (kind : OpKind) (whole : resolver.Whole)
    (has : resolver.table.Has id) :
    Yields Whole KeepsTypes (fun base later => ∀ id ∈ base, later.table.Has id)
      (destroyedBase? hooks fuel id kind) resolver := by
  cases kind with
  | destroy =>
      have asks := @onTable_yields resolver Body (fun body table => ∀ slot ∈ body.slots, table.Has slot.type) _ whole
        (TableM.body_yields whole.proper has)
      apply asks.bind
      intro body middle whole _ inside
      split
      · rename_i base isBase
        have hasBase : middle.table.Has base := inside ⟨.base, base⟩ (by simp [Body.slots, isBase])
        apply (resolve_yields frozen fuel .destroy whole hasBase).bind
        intro operation later whole keeps _
        split
        · exact yields_pure whole (by simp)
        · exact yields_pure whole (by simpa using keeps.has hasBase)
      · exact yields_pure whole (by simp)
  | _ => exact yields_pure whole (by simp)

/-- A plan for the types of a resolver and those of later ones. -/
def PlansFrom {Node : Type} (resolver : Resolver) (plan : TypeId → String → ResolveM (List Node)) : Prop :=
  ∀ id place later, later.Whole → resolver.KeepsTypes later → later.table.Has id →
    Yields Whole KeepsTypes (fun _ _ => True) (plan id place) later

theorem PlansFrom.later {Node : Type} {plan : TypeId → String → ResolveM (List Node)} {later : Resolver}
    (plans : PlansFrom resolver plan) (keeps : resolver.KeepsTypes later) : PlansFrom later plan :=
  fun id place last whole onwards => plans id place last whole (trans_of KeepsTypes keeps onwards)

theorem expandSlot_yields {plan : TypeId → String → ResolveM (List CallNode)} (plans : PlansFrom resolver plan)
    (place : String) {slot : Slot} (whole : resolver.Whole) (has : resolver.table.Has slot.type) :
    Yields Whole KeepsTypes (fun _ _ => True) (expandSlot plan place slot) resolver := by
  have here (place : String) : Yields Whole KeepsTypes (fun _ _ => True) (plan slot.type place) resolver :=
    plans slot.type place resolver whole (refl_of KeepsTypes resolver) has
  have placed : Yields Whole KeepsTypes (fun _ _ => True)
      (do plan slot.type (← slotPlace slot place) : ResolveM (List CallNode)) resolver :=
    (slotPlace_yields whole has place).bind fun part later whole keeps _ =>
      plans slot.type part later whole keeps (keeps.has has)
  unfold expandSlot
  split
  · rename_i count _
    have unrolled : Yields Whole KeepsTypes (fun _ _ => True)
        ((List.range count.toNat).mapM fun index => plan slot.type s!"{place}[{index}]") resolver :=
      yields_mapM_each (fun index _ later whole keeps => plans slot.type _ later whole keeps (keeps.has has)) whole
    exact unrolled.bind fun _ _ whole _ _ => yields_pure whole trivial
  · exact (here _).bind fun _ _ whole _ _ => yields_pure whole trivial
  · exact placed

/-- A call plan is worked out for every existing type. -/
theorem expandWithin_yields (frozen : hooks.frozen = true) (kind : OpKind) (fuel : Nat) (active : List TypeId)
    (place : String) (whole : resolver.Whole) (has : resolver.table.Has id) :
    Yields Whole KeepsTypes (fun _ _ => True) (expandWithin hooks kind fuel active id place) resolver := by
  induction fuel generalizing active id place resolver with
  | zero => exact yields_exhausted
  | succ fuel ih =>
      rw [expandWithin_succ]
      apply (resolve_yields frozen fuel kind whole has).bind
      intro operation middle whole keeps known
      have has := keeps.has has
      split
      · exact yields_pure whole trivial
      · apply (destroyedBase?_yields frozen fuel kind whole has).bind
        intro base later whole _ hasBase
        cases base with
        | none => exact yields_pure whole trivial
        | some base =>
            have hasBase := hasBase base rfl
            dsimp only
            split
            · exact yields_pure whole trivial
            · apply (convertedPlace_yields whole hasBase place).bind
              intro basePlace converted whole keeps _
              apply (ih (id :: active) basePlace whole (keeps.has hasBase)).bind
              exact fun _ _ whole _ _ => yields_pure whole trivial
      · rename_i steps isLifted
        split
        · exact yields_pure whole trivial
        · have inside := known steps isLifted
          have parts : Yields Whole KeepsTypes (fun _ _ => True)
              (steps.mapM (expandSlot (expandWithin hooks kind fuel (id :: active)) place)) middle :=
            yields_mapM_each (fun slot member later whole keeps => expandSlot_yields
              (fun other place last whole _ has => ih (id :: active) place whole has) place whole
              (keeps.has (inside slot member))) whole
          exact parts.bind fun _ _ whole _ _ => yields_pure whole trivial

theorem ownsStorage_yields (fuel : Nat) (whole : resolver.Whole) (has : resolver.table.Has id) :
    Yields Whole KeepsTypes (fun _ _ => True) (ownsStorage fuel id) resolver := by
  rw [ownsStorage, searchStorage_eq_search]
  refine search_yields (fun less _ other state whole has => ?_) [] whole (by simpa using has)
  apply (isUnresolvable_yields less whole has).bind
  intro unresolvable middle whole keeps _
  have has := keeps.has has
  cases unresolvable with
  | true => exact yields_pure whole (by simp)
  | false =>
      obtain ⟨type, found⟩ := has.exists
      refine Yields.read (fetch_run found) ?_
      split
      · exact yields_pure whole (by simp)
      · apply (constituents_yields whole has).bind
        intro slots later whole _ inside
        refine yields_pure whole fun next isNext other member => ?_
        obtain rfl := Option.mem_some.mp isNext
        obtain ⟨slot, isSlot, rfl⟩ := mem_typesBackwards.mp member
        exact inside slot isSlot

theorem copySlot_yields {plan : TypeId → String → ResolveM (List CopyNode)} (plans : PlansFrom resolver plan)
    (place : String) {slot : Slot} (whole : resolver.Whole) (has : resolver.table.Has slot.type) :
    Yields Whole KeepsTypes (fun _ _ => True) (copySlot plan place slot) resolver := by
  unfold copySlot
  split
  · rename_i count _
    have unrolled : Yields Whole KeepsTypes (fun _ _ => True)
        ((List.range (count.getD 0).toNat).mapM fun index => plan slot.type s!"{place}[{index}]") resolver :=
      yields_mapM_each (fun index _ later whole keeps => plans slot.type _ later whole keeps (keeps.has has)) whole
    exact unrolled.bind fun _ _ whole _ _ => yields_pure whole trivial
  · exact yields_pure whole trivial
  · exact (slotPlace_yields whole has place).bind fun part later whole keeps _ =>
      plans slot.type part later whole keeps (keeps.has has)

theorem copyInside_yields {plan : TypeId → String → ResolveM (List CopyNode)} {type : TypeDef}
    (plans : PlansFrom resolver plan) (place : String) (whole : resolver.Whole)
    (found : resolver.table.get? id = some type) :
    Yields Whole KeepsTypes (fun _ _ => True) (copyInside plan id place type) resolver := by
  have inside : Yields Whole KeepsTypes (fun _ _ => True) (do
      let slots ← onTable (TableM.constituents id)
      let parts ← slots.mapM (copySlot plan place)
      return parts.flatten : ResolveM (List CopyNode)) resolver := by
    apply (constituents_yields whole (has_of_get? found)).bind
    intro slots middle whole keeps inside
    have parts : Yields Whole KeepsTypes (fun _ _ => True)
        (slots.mapM (copySlot plan place)) middle :=
      yields_mapM_each (fun slot member later whole onwards =>
        copySlot_yields (plans.later (trans_of KeepsTypes keeps onwards)) place whole
          (onwards.has (inside slot member))) whole
    exact parts.bind fun _ _ whole _ _ => yields_pure whole trivial
  cases type with
  | wrap wrapper inner =>
      have hasInner := (whole.proper.earlier id _ found inner (by simp [TypeDef.parts])).1
      have pointed (place : String) (children : List CopyNode → List CopyNode) :
          Yields Whole KeepsTypes (fun _ _ => True)
            (do return children (← plan inner place) : ResolveM (List CopyNode)) resolver :=
        (plans inner place resolver whole (refl_of KeepsTypes resolver) hasInner).bind
          fun _ _ whole _ _ => yields_pure whole trivial
      cases wrapper with
      | ref => exact pointed _ fun children => [.clone place id children]
      | ptr => exact pointed _ fun children => [.clone place id children]
      | seq => exact pointed _ fun children => [.clone place id children]
      | var => exact inside
      | lent => exact inside
  | _ => exact inside

/-- A copy plan is worked out for every existing type. -/
theorem copyWithin_yields (frozen : hooks.frozen = true) (fuel : Nat) (active : List TypeId) (place : String)
    (whole : resolver.Whole) (has : resolver.table.Has id) :
    Yields Whole KeepsTypes (fun _ _ => True) (copyWithin hooks fuel active id place) resolver := by
  induction fuel generalizing active id place resolver with
  | zero =>
      rw [copyWithin]
      exact yields_exhausted
  | succ fuel ih =>
      rw [copyWithin_succ]
      apply (isUnresolvable_yields fuel whole has).bind
      intro unresolvable middle whole keeps _
      have has := keeps.has has
      cases unresolvable with
      | true => exact yields_pure whole trivial
      | false =>
          apply (resolve_yields frozen fuel .deepCopy whole has).bind
          intro operation later whole keeps _
          have has := keeps.has has
          obtain ⟨type, found⟩ := has.exists
          have copies : Yields Whole KeepsTypes (fun _ _ => True) (do
              let type ← fetch id
              if id ∈ active then
                if type.isSharedStorage || (← ownsStorage fuel id) then
                  return [.recursive place id]
                else
                  return []
              else
                copyInside (copyWithin hooks fuel (id :: active)) id place type : ResolveM (List CopyNode)) later := by
            refine Yields.read (fetch_run found) ?_
            split
            · apply (ownsStorage_yields fuel whole has).bind
              intro owns last whole _ _
              split <;> exact yields_pure whole trivial
            · exact copyInside_yields (fun other place last whole _ has => ih (id :: active) place whole has) place
                whole found
          cases operation.outcome with
          | overridden entry => exact yields_pure whole trivial
          | lifted steps => exact copies
          | builtIn => exact copies

end Planning
end ResolveM
end LifecycleHooks

import LifecycleHooks.Proofs.Lifting.Confinement

/-!
# Every query about finitely many types is answered

A fenced resolver leaves its ground through no type that it has judged not to grow.  If all its
grounds lie among finitely many types, a large enough budget suffices for every query about types
of the ground, whatever was asked before: each type is visited or on the stack at most once.
-/

namespace LifecycleHooks

open Attempt ResolveM Resolver TypeTable

namespace ResolveM

variable {trees : Set TypeTree} {ground : Resolver → Set TypeTree} {resolver : Resolver} {id : TypeId}

section Exploring

theorem fenced_growsForever_settles (fenced : resolver.Fenced trees ground)
    (has : resolver.table.Has id) : Settles (fun _ _ => True) (fun fuel => growsForever fuel id) resolver :=
  growsForever_settles fenced.intact has (by simp [fenced.judging]) (by simp [fenced.judging])
    (by simp [fenced.judging])

/-- The constituents of a type lie where its spelling says. -/
theorem constituents_within_settles (intact : resolver.Intact) (has : resolver.table.Has id)
    (closed : ∀ part ∈ resolver.table.constituentTrees (resolver.table.tree id), part ∈ trees) :
    Settles (fun slots later => ∀ slot ∈ slots, later.table.Within trees slot.type)
      (fun _ => onTable (TableM.constituents id)) resolver := by
  apply (constituents_settles intact has).mono
  intro slots later _ _ holds slot member
  refine ⟨holds.2 slot member, closed _ ?_⟩
  rw [← holds.1]
  exact List.mem_map_of_mem member

theorem fenced_constituents_settles (fenced : resolver.Fenced trees ground)
    (inside : resolver.table.Within (ground resolver) id) (judged : resolver.Judged id false) :
    Settles (fun slots later => ∀ slot ∈ slots, later.table.Within (ground later) slot.type)
      (fun _ => onTable (TableM.constituents id)) resolver := by
  apply (constituents_within_settles fenced.intact inside.1 (fenced.closed judged inside)).mono
  intro slots later _ run within slot member
  obtain ⟨_, wider, _⟩ := ((fenced_leadsQueries {} trees ground).constituents id).of_ok run fenced
  exact ⟨(within slot member).1, wider (within slot member).2⟩

theorem byValueParts_settles (fenced : resolver.Fenced trees ground)
    (inside : resolver.table.Within (ground resolver) id) :
    Settles (fun parts later => ∀ part ∈ parts, later.table.Within (ground later) part)
      (fun fuel => byValueParts fuel id) resolver := by
  apply (fenced_growsForever_settles fenced inside.1).bind
  intro grows middle budget run _
  obtain ⟨middleFenced, _, keeps⟩ := (growsForever_staysFenced trees ground budget id).of_ok run fenced
  have middleInside := keeps id inside
  cases grows with
  | true => exact settles_pure (by simp)
  | false =>
      obtain ⟨type, found⟩ := middleInside.1.exists
      refine Settles.after (fetch_eq_ok.mpr ⟨get_eq_ok.mpr found, rfl⟩) ?_
      cases containsByValue type with
      | false => exact settles_pure (by simp)
      | true =>
          apply (fenced_constituents_settles middleFenced middleInside (judged_of_run run)).bind
          intro slots later _ _ partsInside
          refine settles_pure fun part member => ?_
          obtain ⟨slot, isSlot, rfl⟩ := List.mem_map.mp member
          exact partsInside slot isSlot

/-- At most so many types of the set were not visited yet. -/
def FewLeft (trees : Set TypeTree) (left : Nat) (resolver : Resolver) : Prop :=
  ∃ seen : List TypeId, seen.Nodup ∧
    (∀ id ∈ seen, id ∈ resolver.visited ∧ resolver.table.Within trees id) ∧
    trees.ncard ≤ seen.length + left

theorem FewLeft.keeps {left : Nat} {later : Resolver} (few : FewLeft trees left resolver)
    (visited : resolver.visited ⊆ later.visited)
    (within : ∀ id, resolver.table.Within trees id → later.table.Within trees id) :
    FewLeft trees left later := by
  obtain ⟨seen, distinct, inside, enough⟩ := few
  exact ⟨seen, distinct, fun id member => ⟨visited (inside id member).1, within id (inside id member).2⟩,
    enough⟩

/-- A type that is visited for the first time is one of those that were left. -/
theorem FewLeft.visit {left : Nat} (few : FewLeft trees left resolver) (later : Resolver)
    (intact : resolver.Intact) (finite : trees.Finite)
    (within : resolver.table.Within trees id) (new : id ∉ resolver.visited)
    (sameTable : later.table = resolver.table) (visited : later.visited = id :: resolver.visited) :
    0 < left ∧ FewLeft trees (left - 1) later := by
  obtain ⟨seen, distinct, inside, enough⟩ := few
  have nowDistinct : (id :: seen).Nodup := List.nodup_cons.mpr ⟨fun member => new (inside id member).1, distinct⟩
  have nowWithin : ∀ other ∈ id :: seen, resolver.table.Within trees other :=
    List.forall_mem_cons.mpr ⟨within, fun other member => (inside other member).2⟩
  have room := intact.regular.length_le_ncard finite nowDistinct nowWithin
  rw [List.length_cons] at room
  refine ⟨by omega, id :: seen, nowDistinct, fun other member => ?_, ?_⟩
  · rw [visited, sameTable]
    refine ⟨?_, nowWithin other member⟩
    cases List.mem_cons.mp member with
    | inl same => exact same ▸ List.mem_cons_self
    | inr earlier => exact List.mem_cons_of_mem id (inside other earlier).1
  · rw [List.length_cons]
    omega

/-- An exploration visits each type of the set at most once. -/
theorem explore_settles {left : Nat} (finite : trees.Finite) (fenced : resolver.Fenced trees ground)
    (inside : resolver.table.Within (ground resolver) id) (new : id ∉ resolver.visited)
    (few : FewLeft trees left resolver) :
    Settles (fun _ _ => True) (fun fuel => explore fuel id) resolver := by
  induction left using Nat.strong_induction_on generalizing resolver id with
  | h left ih =>
      apply Settles.of_succ
      simp only [explore]
      refine Settles.after (modify_run _ resolver) ?_
      let begun : Resolver := { resolver with visited := id :: resolver.visited, trail := id :: resolver.trail }
      have begins : StaysFenced trees ground resolver begun :=
        Persists.staysFenced (persists_of_eq rfl rfl rfl rfl rfl) ⟨.refl _, fun _ _ known => known⟩
      obtain ⟨begunFenced, _, begunInside⟩ := begins fenced
      have within : resolver.table.Within trees id := ⟨inside.1, fenced.among inside.2⟩
      obtain ⟨positive, fewer⟩ := few.visit begun fenced.intact finite within new rfl rfl
      apply (byValueParts_settles begunFenced (begunInside id inside)).bind
      intro parts middle budget run partsInside
      have judges := (byValueParts_judges budget id).of_ok run
      have persists := (byValueParts_persists budget id).of_ok run
      obtain ⟨middleFenced, _, middleInside⟩ := persists.staysFenced judges.toLearns begunFenced
      refine Settles.after (modify_run _ middle) ?_
      let linked : Resolver := { middle with links := middle.links ++ [(id, parts)] }
      have links : StaysFenced trees ground middle linked :=
        ((link_staysIntact (middleInside id (begunInside id inside)).1 parts).persists rfl rfl rfl).staysFenced
          ⟨.refl _, fun _ _ known => known⟩
      obtain ⟨linkedFenced, _, linkedInside⟩ := links middleFenced
      have linkedFew : FewLeft trees (left - 1) linked :=
        fewer.keeps (fun _ member => judges.visited ▸ member) fun other =>
          begunFenced.intact.regular.within_extends judges.table
      have followed : Settles (fun _ later => later.Fenced trees ground ∧
            (∀ part ∈ parts, later.table.Within (ground later) part) ∧ FewLeft trees (left - 1) later)
          (fun fuel => parts.forM fun part => do
            if part ∉ (← get).visited then
              explore fuel part) linked := by
        refine settles_forM (fun part member state holds => ?_)
          ⟨linkedFenced, fun part member => linkedInside part (partsInside part member), linkedFew⟩
        obtain ⟨stateFenced, stateInside, stateFew⟩ := holds
        refine Settles.after (get_run state) ?_
        by_cases before : part ∈ state.visited
        · simp only [before, not_true_eq_false, if_false]
          exact settles_pure ⟨stateFenced, stateInside, stateFew⟩
        · simp only [before, not_false_eq_true, if_true]
          apply (ih (left - 1) (by omega) stateFenced (stateInside part member) before stateFew).mono
          intro _ later fuel explored _
          have explores := explore_explores fuel part state before
          have persists := (explore_persists fuel part).of_ok explored
          rw [finish_of_ok explored] at explores
          obtain ⟨laterFenced, _, laterInside⟩ := persists.staysFenced explores.toLearns stateFenced
          exact ⟨laterFenced, fun other inParts => laterInside other (stateInside other inParts),
            stateFew.keeps explores.visited fun other => stateFenced.intact.regular.within_extends explores.table⟩
      exact followed.bind fun _ last _ _ _ => settles_of_ok (fun _ => modify_run _ last) trivial

theorem exploreOnce_settles (finite : trees.Finite) (fenced : resolver.Fenced trees ground)
    (inside : resolver.table.Within (ground resolver) id) :
    Settles (fun _ _ => True) (fun fuel => exploreOnce fuel id) resolver := by
  unfold exploreOnce
  refine Settles.after (get_run resolver) ?_
  by_cases before : id ∈ resolver.visited
  · simp only [before, not_true_eq_false, if_false]
    exact settles_pure trivial
  · simp only [before, not_false_eq_true, if_true]
    have none : FewLeft trees trees.ncard resolver := ⟨[], List.nodup_nil, by simp, by simp⟩
    exact (explore_settles finite fenced inside before none).andFinally fun _ _ _ _ _ => trivial

theorem reportGrowth_settles {head : TypeId} (intact : resolver.Intact) (has : resolver.table.Has head) :
    Settles (fun _ _ => True) (fun _ => reportGrowth head) resolver := by
  obtain ⟨name, spelled⟩ := spell_answers intact.regular.toWellFormed intact.regular.paramsKnown has
  obtain ⟨span, declared⟩ := declaredAt_answers intact.regular.toWellFormed has
  unfold reportGrowth
  refine Settles.after (get_run resolver) ?_
  by_cases before : head ∈ resolver.reported
  · simp only [before, not_true_eq_false, if_false]
    exact settles_pure trivial
  · simp only [before, not_false_eq_true, if_true]
    refine Settles.after (modify_run _ resolver) ?_
    refine Settles.after (ask_eq_ok.mpr ⟨spelled, rfl⟩) ?_
    refine Settles.after (ask_eq_ok.mpr ⟨declared, rfl⟩) ?_
    exact settles_of_ok (fun _ => modify_run _ _) trivial

theorem reportCycle_settles {cycle : List TypeId} (intact : resolver.Intact) (has : resolver.table.Has id)
    (members : ∀ member ∈ cycle, resolver.table.Has member) :
    Settles (fun _ _ => True) (fun _ => reportCycle id cycle) resolver := by
  have wellFormed := intact.regular.toWellFormed
  obtain ⟨span, declared⟩ := declaredAt_answers wellFormed has
  unfold reportCycle
  refine Settles.after (get_run resolver) ?_
  by_cases before : id ∈ resolver.reported
  · simp only [before, not_true_eq_false, if_false]
    exact settles_pure trivial
  · simp only [before, not_false_eq_true, if_true]
    refine Settles.after (modify_run _ resolver) ?_
    have named : Settles (fun _ state => state.table = resolver.table)
        (fun _ => cycle.mapM fun member => ask (·.spell member))
        { resolver with reported := cycle ++ resolver.reported } := by
      refine settles_mapM (fun member inside state same => ?_) rfl
      obtain ⟨name, spelled⟩ := spell_answers wellFormed intact.regular.paramsKnown (members member inside)
      exact settles_of_ok (fun _ => ask_eq_ok.mpr ⟨same ▸ spelled, rfl⟩) same
    apply named.bind
    intro names middle _ _ same
    refine Settles.after (ask_eq_ok.mpr ⟨same ▸ declared, rfl⟩) ?_
    exact settles_of_ok (fun _ => modify_run _ _) trivial

/-- Whether a type has a finite structure is settled for every type of the ground. -/
theorem fenced_isUnresolvable_settles (finite : trees.Finite) (fenced : resolver.Fenced trees ground)
    (inside : resolver.table.Within (ground resolver) id) :
    Settles (fun _ _ => True) (fun fuel => isUnresolvable fuel id) resolver := by
  unfold isUnresolvable
  apply (fenced_growsForever_settles fenced inside.1).bind
  intro grows middle budget run _
  obtain ⟨middleFenced, _, keeps⟩ := (growsForever_staysFenced trees ground budget id).of_ok run fenced
  have middleInside := keeps id inside
  cases grows with
  | true =>
      obtain ⟨type, found⟩ := middleInside.1.exists
      obtain ⟨answer, asked⟩ := head?_answers found
      refine Settles.after (ask_eq_ok.mpr ⟨asked, rfl⟩) ?_
      have has : middle.table.Has (answer.getD id) := by
        cases answer with
        | none => exact middleInside.1
        | some head => exact head_known middleFenced.intact middleInside.1 asked head rfl
      exact (reportGrowth_settles middleFenced.intact has).bind fun _ _ _ _ _ => settles_pure trivial
  | false =>
      apply (exploreOnce_settles finite middleFenced middleInside).bind
      intro _ later fuel explored _
      obtain ⟨laterFenced, _, laterKeeps⟩ :=
        (exploreOnce_staysFenced trees ground fuel id).of_ok explored middleFenced
      refine Settles.after (get_run later) ?_
      cases onCycle : later.cycles.lookup id with
      | none => exact settles_pure trivial
      | some cycle =>
          have members := laterFenced.intact.cycles _ (mem_of_lookup onCycle)
          exact (reportCycle_settles laterFenced.intact (laterKeeps id middleInside).1 members).bind
            fun _ _ _ _ _ => settles_pure trivial

theorem isUnresolvable_settles (finite : trees.Finite) (confined : resolver.Confined trees)
    (within : resolver.table.Within trees id) :
    Settles (fun _ _ => True) (fun fuel => isUnresolvable fuel id) resolver :=
  fenced_isUnresolvable_settles finite (confined_iff.mp confined) within

end Exploring
end ResolveM

namespace TypeTable

variable {table : TypeTable}

theorem nominalHook?_answers (hooks : Registry) {id : TypeId} (kind : OpKind) (has : table.Has id) :
    ∃ hook, table.nominalHook? hooks id kind = .ok hook := by
  obtain ⟨type, found⟩ := has.exists
  obtain ⟨head, asked⟩ := head?_answers found
  have nominal : table.isNominal id = .ok type.isNominal := by
    unfold isNominal
    rw [get_eq_ok.mpr found]
    rfl
  unfold nominalHook?
  refine bind_answers nominal ?_
  cases type.isNominal with
  | false => exact ⟨_, rfl⟩
  | true =>
      simp only [Bool.not_true, Bool.false_eq_true, if_false]
      cases hooks.lookup id kind with
      | some entry => exact ⟨_, rfl⟩
      | none =>
          refine bind_answers asked ?_
          cases head <;> exact ⟨_, rfl⟩

theorem governingHook?_answers (wellFormed : table.WellFormed) (hooks : Registry) {id : TypeId} (kind : OpKind)
    (has : table.Has id) : ∃ hook, table.governingHook? hooks id kind = .ok hook := by
  obtain ⟨type, found⟩ := has.exists
  obtain ⟨own, asked⟩ := nominalHook?_answers hooks kind has
  unfold governingHook?
  refine bind_answers (get_eq_ok.mpr found) ?_
  split
  · rename_i indirection pointee _ isPointee
    have inside : pointee ∈ type.parts := by
      cases type with
      | wrap wrapper inner => cases wrapper <;> simp_all [TypeDef.pointee?, TypeDef.parts]
      | _ => cases isPointee
    obtain ⟨hook, found⟩ := nominalHook?_answers hooks .deepCopy (wellFormed.earlier id type found pointee inside).1
    exact bind_answers found ⟨_, rfl⟩
  · exact ⟨_, rfl⟩
  · exact ⟨_, rfl⟩
  · exact ⟨own, asked⟩

end TypeTable

namespace ResolveM

variable {hooks : Registry} {kind : OpKind} {trees : Set TypeTree} {ground : Resolver → Set TypeTree}
  {resolver : Resolver} {id : TypeId}

section Resolving

/-- So do those that an operation of a kind is lifted to. -/
theorem relevantSlots_within_settles (intact : resolver.Intact) (has : resolver.table.Has id)
    (closed : ∀ part ∈ resolver.table.constituentTrees (resolver.table.tree id), part ∈ trees) :
    Settles (fun slots later => ∀ slot ∈ slots, later.table.Within trees slot.type)
      (fun _ => relevantSlots id kind) resolver := by
  obtain ⟨type, found⟩ := has.exists
  unfold relevantSlots
  refine Settles.after (fetch_eq_ok.mpr ⟨get_eq_ok.mpr found, rfl⟩) ?_
  cases followsConstituents kind type with
  | false => exact settles_pure (by simp)
  | true => exact constituents_within_settles intact has closed

theorem relevantSlots_settles (confined : resolver.Confined trees)
    (within : resolver.table.Within trees id) (spared : resolver.Spared id) :
    Settles (fun slots later => ∀ slot ∈ slots, later.table.Within trees slot.type)
      (fun _ => relevantSlots id kind) resolver :=
  relevantSlots_within_settles confined.intact within.1 (confined.closed spared within)

theorem fenced_relevantSlots_settles (fenced : resolver.Fenced trees ground)
    (inside : resolver.table.Within (ground resolver) id) (judged : resolver.Judged id false) :
    Settles (fun slots later => ∀ slot ∈ slots, later.table.Within (ground later) slot.type)
      (fun _ => relevantSlots id kind) resolver := by
  apply (relevantSlots_within_settles fenced.intact inside.1 (fenced.closed judged inside)).mono
  intro slots later _ run within slot member
  have leads := (fenced_leadsQueries {} trees ground).toLeadsVerdicts
  obtain ⟨_, wider, _⟩ := (relevantSlots_leads leads id kind).of_ok run fenced
  exact ⟨(within slot member).1, wider (within slot member).2⟩

/-- A search among the types of the ground comes to its end. -/
theorem search_fenced_settles {visit : Nat → TypeId → ResolveM (Option (List TypeId))}
    (finite : trees.Finite)
    (leads : ∀ fuel id, (visit fuel id).Preserves (StaysFenced trees ground))
    (visits : ∀ id (resolver : Resolver), resolver.Fenced trees ground →
      resolver.table.Within (ground resolver) id →
      Settles (fun found later => ∀ next, found = some next → ∀ other ∈ next, later.table.Within (ground later) other)
        (fun fuel => visit fuel id) resolver)
    (fenced : resolver.Fenced trees ground) (inside : resolver.table.Within (ground resolver) id) :
    Settles (fun _ _ => True) (fun fuel => search visit fuel [] [id]) resolver := by
  have bounded (state : Resolver) (seen : List TypeId) (holds : state.Fenced trees ground) (distinct : seen.Nodup)
      (within : ∀ id ∈ seen, state.table.Within (ground state) id) : seen.length ≤ trees.ncard :=
    holds.intact.regular.length_le_ncard finite distinct fun id member =>
      ⟨(within id member).1, holds.among (within id member).2⟩
  refine search_settles bounded (fun other state holds within => ?_) fenced List.nodup_nil (by simp)
    (List.forall_mem_singleton.mpr inside)
  apply (visits other state holds within).mono
  intro found later fuel run next
  obtain ⟨laterFenced, _, keeps⟩ := (leads fuel other).of_ok run holds
  exact ⟨laterFenced, keeps, next⟩

theorem visitForHook_settles (finite : trees.Finite) (fenced : resolver.Fenced trees ground)
    (inside : resolver.table.Within (ground resolver) id) :
    Settles (fun found later => ∀ next, found = some next → ∀ other ∈ next, later.table.Within (ground later) other)
      (fun fuel => visitForHook hooks kind fuel id) resolver := by
  have leads := (fenced_leadsQueries hooks trees ground).toLeadsVerdicts
  unfold visitForHook
  apply (fenced_isUnresolvable_settles finite fenced inside).bind
  intro unresolvable middle fuel run _
  obtain ⟨middleFenced, _, keeps⟩ := (leads.unresolvable fuel id).of_ok run fenced
  have middleInside := keeps id inside
  cases unresolvable with
  | true => exact settles_pure (by simp)
  | false =>
      refine Settles.after (known?_run middle id kind) ?_
      cases middle.operations.lookup (id, kind) with
      | some outcome => cases outcome <;> exact settles_pure (by simp [Outcome.isBuiltIn])
      | none =>
          obtain ⟨hook, asked⟩ := governingHook?_answers middleFenced.intact.regular.toWellFormed hooks kind
            middleInside.1
          refine Settles.after (ask_eq_ok.mpr ⟨asked, rfl⟩) ?_
          cases hook with
          | some entry => exact settles_pure (by simp)
          | none =>
              apply (fenced_relevantSlots_settles middleFenced middleInside (clear_of_answer run).judged).bind
              intro slots later _ _ slotsInside
              refine settles_pure fun next isNext other member => ?_
              obtain rfl := Option.some.inj isNext
              obtain ⟨slot, isSlot, rfl⟩ := mem_typesBackwards.mp member
              exact slotsInside slot isSlot

theorem reachesHook_settles (finite : trees.Finite) (fenced : resolver.Fenced trees ground)
    (inside : resolver.table.Within (ground resolver) id) :
    Settles (fun _ _ => True) (fun fuel => reachesHook hooks fuel id kind) resolver := by
  have leads := (fenced_leadsQueries hooks trees ground).toLeadsVerdicts
  unfold reachesHook
  refine Settles.after (known?_run resolver id kind) ?_
  cases resolver.operations.lookup (id, kind) with
  | some outcome => exact settles_pure trivial
  | none =>
      simp only [searchHook_eq_search]
      exact search_fenced_settles finite (visitForHook_leads leads hooks kind)
        (fun other state holds within => visitForHook_settles finite holds within) fenced inside

theorem determine_settles (finite : trees.Finite) (fenced : resolver.Fenced trees ground)
    (inside : resolver.table.Within (ground resolver) id) :
    Settles (fun _ _ => True) (fun fuel => determine hooks fuel id kind) resolver := by
  have leads := (fenced_leadsQueries hooks trees ground).toLeadsVerdicts
  unfold determine
  apply (fenced_isUnresolvable_settles finite fenced inside).bind
  intro unresolvable middle fuel run _
  obtain ⟨middleFenced, _, keeps⟩ := (leads.unresolvable fuel id).of_ok run fenced
  have middleInside := keeps id inside
  cases unresolvable with
  | true => exact settles_pure trivial
  | false =>
      obtain ⟨hook, asked⟩ := governingHook?_answers middleFenced.intact.regular.toWellFormed hooks kind
        middleInside.1
      refine Settles.after (ask_eq_ok.mpr ⟨asked, rfl⟩) ?_
      cases hook with
      | some entry => exact settles_pure trivial
      | none =>
          apply (fenced_relevantSlots_settles middleFenced middleInside (clear_of_answer run).judged).bind
          intro slots later fuel slotsRun slotsInside
          obtain ⟨laterFenced, _, laterKeeps⟩ := (relevantSlots_leads leads id kind).of_ok slotsRun middleFenced
          cases slots.isEmpty with
          | true => exact settles_pure trivial
          | false =>
              apply (reachesHook_settles finite laterFenced (laterKeeps id middleInside)).bind
              intro reaches last fuel reachesRun _
              obtain ⟨lastFenced, _, lastKeeps⟩ := (reachesHook_leads leads hooks fuel id kind).of_ok reachesRun laterFenced
              cases reaches with
              | false => exact settles_pure trivial
              | true =>
                  have chosen : Settles
                      (fun _ state => state.Fenced trees ground ∧
                        ∀ slot ∈ slots, state.table.Within (ground state) slot.type)
                      (fun fuel => slots.filterM fun slot => reachesHook hooks fuel slot.type kind) last := by
                    refine settles_filterM (fun slot member state holds => ?_)
                      ⟨lastFenced, fun slot member => lastKeeps slot.type (slotsInside slot member)⟩
                    obtain ⟨stateFenced, stateInside⟩ := holds
                    apply (reachesHook_settles finite stateFenced (stateInside slot member)).mono
                    intro _ next fuel run _
                    obtain ⟨nextFenced, _, nextKeeps⟩ :=
                      (reachesHook_leads leads hooks fuel slot.type kind).of_ok run stateFenced
                    exact ⟨nextFenced, fun other here => nextKeeps other.type (stateInside other here)⟩
                  exact chosen.bind fun _ _ _ _ _ => settles_pure trivial

/-- The effective operation of every type of the ground is found. -/
theorem fenced_resolve_settles (frozen : hooks.frozen = true) (finite : trees.Finite)
    (fenced : resolver.Fenced trees ground) (inside : resolver.table.Within (ground resolver) id) :
    Settles (fun _ _ => True) (fun fuel => resolve hooks fuel id kind) resolver := by
  unfold resolve
  simp only [frozen, Bool.not_true, Bool.false_eq_true, if_false]
  refine Settles.after (known?_run resolver id kind) ?_
  cases resolver.operations.lookup (id, kind) with
  | some outcome => exact settles_pure trivial
  | none =>
      apply (determine_settles finite fenced inside).bind
      intro outcome later _ _ _
      exact Settles.after (modify_run _ later) (settles_pure trivial)

theorem resolve_settles (frozen : hooks.frozen = true) (finite : trees.Finite)
    (confined : resolver.Confined trees) (within : resolver.table.Within trees id) :
    Settles (fun _ _ => True) (fun fuel => resolve hooks fuel id kind) resolver :=
  fenced_resolve_settles frozen finite (confined_iff.mp confined) within

theorem fenced_ownsStorage_settles (finite : trees.Finite) (fenced : resolver.Fenced trees ground)
    (inside : resolver.table.Within (ground resolver) id) :
    Settles (fun _ _ => True) (fun fuel => ownsStorage fuel id) resolver := by
  have leads := (fenced_leadsQueries {} trees ground).toLeadsVerdicts
  simp only [ownsStorage, searchStorage_eq_search]
  refine search_fenced_settles finite (visitForStorage_leads leads) (fun other state holds within => ?_)
    fenced inside
  unfold visitForStorage
  apply (fenced_isUnresolvable_settles finite holds within).bind
  intro unresolvable middle fuel run _
  obtain ⟨middleFenced, _, keeps⟩ := (leads.unresolvable fuel other).of_ok run holds
  have middleInside := keeps other within
  cases unresolvable with
  | true => exact settles_pure (by simp)
  | false =>
      obtain ⟨type, found⟩ := middleInside.1.exists
      refine Settles.after (fetch_eq_ok.mpr ⟨get_eq_ok.mpr found, rfl⟩) ?_
      cases type.isSharedStorage with
      | true => exact settles_pure (by simp)
      | false =>
          apply (fenced_constituents_settles middleFenced middleInside (clear_of_answer run).judged).bind
          intro slots later _ _ slotsInside
          refine settles_pure fun next isNext other member => ?_
          obtain rfl := Option.some.inj isNext
          obtain ⟨slot, isSlot, rfl⟩ := mem_typesBackwards.mp member
          exact slotsInside slot isSlot

theorem ownsStorage_settles (finite : trees.Finite) (confined : resolver.Confined trees)
    (within : resolver.table.Within trees id) :
    Settles (fun _ _ => True) (fun fuel => ownsStorage fuel id) resolver :=
  fenced_ownsStorage_settles finite (confined_iff.mp confined) within

end Resolving
end ResolveM
end LifecycleHooks

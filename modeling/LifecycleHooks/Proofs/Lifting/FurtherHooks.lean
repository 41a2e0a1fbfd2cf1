import LifecycleHooks.Proofs.Hook.Binding
import LifecycleHooks.Proofs.Lifting.Agreement
import LifecycleHooks.Proofs.Lifting.Answering
import LifecycleHooks.Proofs.Lifting.Steadiness

/-!
# What a further hook changes

A further hook shadows nothing but the hook of the generic object of an instance that it is
bound to.  As long as a deep copy does not shadow one for the other indirection, every type
that was overridden stays so, and an operation in which some hook takes part is not built in
after it either.
-/

namespace LifecycleHooks

namespace TypeTable

/-- Every type that a hook overrides is overridden with the other hooks too, in a table and
in all that extend it. -/
def StaysOverridden (table : TypeTable) (hooks more : Registry) : Prop :=
  ∀ larger, table.Extends larger → ∀ kind id entry, larger.Overridden hooks kind id entry →
    ∃ other, larger.Overridden more kind id other

variable {table larger : TypeTable} {hooks more : Registry} {id : TypeId} {kind : OpKind}

theorem has_of_nominalHook? {answer : Option HookEntry} (asked : table.nominalHook? hooks id kind = .ok answer) :
    table.Has id := by
  unfold nominalHook? isNominal at asked
  cases found : table.get id with
  | error fault =>
      rw [found] at asked
      cases asked
  | ok type => exact has_of_get? (get_eq_ok.mp found)

/-- The question for a hook is answered with other hooks too. -/
theorem governingHook?_answers_with (more : Registry) {answer : Option HookEntry}
    (asked : table.governingHook? hooks id kind = .ok answer) :
    ∃ other, table.governingHook? more id kind = .ok other := by
  unfold governingHook? at asked ⊢
  cases found : table.get id with
  | error fault =>
      rw [found] at asked
      cases asked
  | ok type =>
      rw [found] at asked
      have has := has_of_get? (get_eq_ok.mp found)
      have copied (indirection : Indirection) (inner : TypeId)
          (asked : (do
            let entry ← table.nominalHook? hooks inner .deepCopy
            return entry.filter (·.indirection = some indirection) : Except Fault (Option HookEntry)) = .ok answer) :
          ∃ other, (do
            let entry ← table.nominalHook? more inner .deepCopy
            return entry.filter (·.indirection = some indirection) : Except Fault (Option HookEntry)) = .ok other := by
        cases inside : table.nominalHook? hooks inner .deepCopy with
        | error fault =>
            rw [inside] at asked
            cases asked
        | ok entry =>
            obtain ⟨other, answers⟩ := nominalHook?_answers more .deepCopy (has_of_nominalHook? inside)
            exact bind_answers answers ⟨_, rfl⟩
      cases kind with
      | deepCopy =>
          cases type with
          | wrap wrapper inner =>
              cases wrapper with
              | ref => exact copied .ref inner asked
              | ptr => exact copied .ptr inner asked
              | _ => exact ⟨_, rfl⟩
          | _ => exact ⟨_, rfl⟩
      | _ =>
          cases type with
          | wrap wrapper inner =>
              cases wrapper with
              | ref | ptr => exact ⟨_, rfl⟩
              | _ => exact nominalHook?_answers more _ has
          | _ => exact nominalHook?_answers more _ has

end TypeTable

namespace Registry

open TypeTable

variable {registry bound : Registry} {entry : HookEntry} {table : TypeTable}

/-- A deep copy does not shadow one for the other indirection: where it is bound to an instance,
the hook of the generic object is made for the same indirection. -/
def Compatible (table : TypeTable) (registry : Registry) (entry : HookEntry) : Prop :=
  entry.kind = .deepCopy → ∀ head args other, table.get? entry.target = some (.applied head args) →
    registry.lookup head .deepCopy = some other → other.indirection = entry.indirection

theorem lookup_kept (entries : bound.entries = registry.entries ++ [entry]) {target : TypeId} {kind : OpKind}
    {other : HookEntry} (found : registry.lookup target kind = some other) :
    bound.lookup target kind = some other := by
  unfold lookup at found ⊢
  rw [entries, List.find?_append, found, Option.some_or]

theorem lookup_new (entries : bound.entries = registry.entries ++ [entry]) {target : TypeId} {kind : OpKind}
    (missing : registry.lookup target kind = none) :
    bound.lookup target kind = none ∨
      entry.target = target ∧ entry.kind = kind ∧ bound.lookup target kind = some entry := by
  unfold lookup at missing ⊢
  rw [entries, List.find?_append, missing, Option.none_or]
  by_cases isKey : entry.target = target ∧ entry.kind = kind
  · exact .inr ⟨isKey.1, isKey.2, by simp [isKey]⟩
  · exact .inl (List.find?_eq_none.mpr (by simpa using isKey))

/-- The hook for a nominal type stays the same unless the further hook shadows it. -/
theorem nominalHook_of_bound (entries : bound.entries = registry.entries ++ [entry]) {id : TypeId}
    {kind : OpKind} {other : HookEntry} (hook : table.NominalHook registry kind id other) :
    table.NominalHook bound kind id other ∨
      entry.target = id ∧ entry.kind = kind ∧ table.NominalHook bound kind id entry ∧
        ∃ head args, table.get? id = some (.applied head args) ∧ registry.lookup head kind = some other := by
  cases hook with
  | own isType nominal found => exact .inl (.own isType nominal (lookup_kept entries found))
  | @generic head args _ isType unbound found =>
      rcases lookup_new entries unbound with still | ⟨isTarget, isKind, shadows⟩
      · exact .inl (.generic isType still (lookup_kept entries found))
      · exact .inr ⟨isTarget, isKind, .own isType rfl shadows, head, args, isType, found⟩

theorem staysOverridden_bound (entries : bound.entries = registry.entries ++ [entry])
    (has : table.Has entry.target) (compatible : registry.Compatible table entry) :
    table.StaysOverridden registry bound := by
  intro larger extends_ kind id other hook
  cases hook with
  | value isValue hook =>
      rcases nominalHook_of_bound entries hook with same | ⟨_, _, shadows, _⟩
      · exact ⟨other, .value isValue same⟩
      · exact ⟨entry, .value isValue shadows⟩
  | copied isCopy isType indirect hook same =>
      subst isCopy
      rcases nominalHook_of_bound entries hook with kept | ⟨rfl, isKind, shadows, head, args, isApplied, found⟩
      · exact ⟨other, .copied rfl isType indirect kept same⟩
      · obtain ⟨type, isTarget⟩ := has.exists
        obtain rfl := Option.some.inj ((extends_.get? isTarget).symm.trans isApplied)
        have agrees := compatible isKind head args other isTarget found
        exact ⟨entry, .copied rfl isType indirect shadows (agrees ▸ same)⟩

end Registry

namespace Resolver

open Attempt ResolveM

/-- A search that finds something also finds something when its visits either answer the
same or find something earlier. -/
theorem search_finds_earlier {visit other : Nat → TypeId → ResolveM (Option (List TypeId))}
    {invariant : Resolver → Prop}
    (each : ∀ fuel id resolver found later, invariant resolver → visit fuel id resolver = .ok found later →
      invariant later ∧ (other fuel id resolver = .ok found later ∨
        ∃ earlier, other fuel id resolver = .ok none earlier))
    {fuel : Nat} {seen pending : List TypeId} {resolver final : Resolver} (holds : invariant resolver)
    (run : search visit fuel seen pending resolver = .ok true final) :
    ∃ earlier, search other fuel seen pending resolver = .ok true earlier := by
  induction fuel generalizing seen pending resolver with
  | zero => cases run
  | succ fuel ih =>
      cases pending with
      | nil => cases run
      | cons id pending =>
          rw [search] at run ⊢
          split at run
          · rename_i before
            rw [if_pos before]
            exact ih holds run
          · rename_i new
            rw [if_neg new]
            obtain ⟨found, later, visited, run⟩ := bind_eq_ok.mp run
            obtain ⟨onwards, same | ⟨earlier, finds⟩⟩ := each fuel id resolver found later holds visited
            · rw [bind_run_of_ok same]
              cases found with
              | none => exact ⟨later, rfl⟩
              | some next => exact ih onwards run
            · rw [bind_run_of_ok finds]
              exact ⟨earlier, rfl⟩

section Fresh

variable {hooks more : Registry} {table : TypeTable}

/-- Nothing was resolved over a table or one that extends it. -/
structure Unasked (table : TypeTable) (resolver : Resolver) : Prop where
  unresolved : resolver.operations = []
  extends_ : table.Extends resolver.table

theorem Unasked.consults {resolver later : Resolver} (unasked : Unasked table resolver)
    (consults : resolver.Consults later) : Unasked table later :=
  ⟨consults.unresolved.trans unasked.unresolved, unasked.extends_.trans consults.table⟩

/-- The hook for a type is missing with the other hooks too, or one overrides it. -/
theorem governed_with (stays : table.StaysOverridden hooks more) {resolver : Resolver}
    (unasked : Unasked table resolver) {id : TypeId} {kind : OpKind} {answer : Option HookEntry}
    (asked : resolver.table.governingHook? hooks id kind = .ok answer) :
    (∃ other, resolver.table.governingHook? more id kind = .ok (some other)) ∨
      answer = none ∧ resolver.table.governingHook? more id kind = .ok none := by
  cases answer with
  | some entry =>
      obtain ⟨other, hook⟩ := stays _ unasked.extends_ kind id entry (TypeTable.governingHook?_eq_ok_some.mp asked)
      exact .inl ⟨other, TypeTable.governingHook?_eq_ok_some.mpr hook⟩
  | none =>
      obtain ⟨answer, asked⟩ := TypeTable.governingHook?_answers_with more asked
      cases answer with
      | some other => exact .inl ⟨other, asked⟩
      | none => exact .inr ⟨rfl, asked⟩

theorem visitForHook_earlier (stays : table.StaysOverridden hooks more) {kind : OpKind} {fuel : Nat} {id : TypeId}
    {resolver later : Resolver} {found : Option (List TypeId)} (unasked : Unasked table resolver)
    (run : visitForHook hooks kind fuel id resolver = .ok found later) :
    Unasked table later ∧ (visitForHook more kind fuel id resolver = .ok found later ∨
      ∃ earlier, visitForHook more kind fuel id resolver = .ok none earlier) := by
  refine ⟨unasked.consults ((visitForHook_consults hooks kind fuel id).of_ok run), ?_⟩
  unfold visitForHook at run ⊢
  obtain ⟨unresolvable, settled, asking, run⟩ := bind_eq_ok.mp run
  have settledUnasked := unasked.consults ((isUnresolvable_consults fuel id).of_ok asking)
  rw [bind_run_of_ok asking]
  cases unresolvable with
  | true => exact .inl run
  | false =>
      rw [if_neg (by simp)] at run ⊢
      have unknown : known? id kind settled = .ok none settled := by simp [known?_run, settledUnasked.unresolved]
      rw [bind_run_of_ok unknown] at run ⊢
      dsimp only at run ⊢
      obtain ⟨answer, middle, asked, run⟩ := bind_eq_ok.mp run
      obtain ⟨governs, rfl⟩ := ask_eq_ok.mp asked
      rcases governed_with stays settledUnasked governs with ⟨other, earlier⟩ | ⟨rfl, missing⟩
      · refine .inr ⟨middle, ?_⟩
        rw [bind_run_of_ok (ask_eq_ok.mpr ⟨earlier, rfl⟩)]
        rfl
      · refine .inl ?_
        rw [bind_run_of_ok (ask_eq_ok.mpr ⟨missing, rfl⟩)]
        exact run

theorem reachesHook_earlier (stays : table.StaysOverridden hooks more) {kind : OpKind} {fuel : Nat} {id : TypeId}
    {resolver final : Resolver} (unasked : Unasked table resolver)
    (run : reachesHook hooks fuel id kind resolver = .ok true final) :
    ∃ earlier, reachesHook more fuel id kind resolver = .ok true earlier := by
  have unknown : known? id kind resolver = .ok none resolver := by simp [known?_run, unasked.unresolved]
  unfold reachesHook at run ⊢
  rw [bind_run_of_ok unknown] at run ⊢
  dsimp only at run ⊢
  rw [searchHook_eq_search] at run ⊢
  exact search_finds_earlier (fun _ _ _ _ _ => visitForHook_earlier stays) unasked run

/-- An operation that is not built in for a resolver that was asked nothing is not built in
with the other hooks. -/
theorem determine_stays (stays : table.StaysOverridden hooks more) {kind : OpKind} {fuel : Nat} {id : TypeId}
    {resolver final final' : Resolver} {outcome other : Outcome} (unasked : Unasked table resolver)
    (run : determine hooks fuel id kind resolver = .ok outcome final)
    (run' : determine more fuel id kind resolver = .ok other final')
    (takesPart : outcome.isBuiltIn = false) : other.isBuiltIn = false := by
  unfold determine at run run'
  obtain ⟨unresolvable, settled, asking, run⟩ := bind_eq_ok.mp run
  have settledUnasked := unasked.consults ((isUnresolvable_consults fuel id).of_ok asking)
  rw [bind_run_of_ok asking] at run'
  cases unresolvable with
  | true =>
      obtain ⟨rfl, _⟩ := EStateM.Result.ok.inj run
      cases takesPart
  | false =>
      rw [if_neg (by simp)] at run run'
      obtain ⟨answer, middle, asked, run⟩ := bind_eq_ok.mp run
      obtain ⟨governs, rfl⟩ := ask_eq_ok.mp asked
      rcases governed_with stays settledUnasked governs with ⟨entry, earlier⟩ | ⟨rfl, missing⟩
      · rw [bind_run_of_ok (ask_eq_ok.mpr ⟨earlier, rfl⟩)] at run'
        obtain ⟨rfl, _⟩ := EStateM.Result.ok.inj run'
        rfl
      · rw [bind_run_of_ok (ask_eq_ok.mpr ⟨missing, rfl⟩)] at run'
        obtain ⟨slots, worked, working, run⟩ := bind_eq_ok.mp run
        dsimp only at run'
        rw [bind_run_of_ok working] at run'
        split at run
        · obtain ⟨rfl, _⟩ := EStateM.Result.ok.inj run
          cases takesPart
        · rename_i nonempty
          rw [if_neg nonempty] at run'
          obtain ⟨reaches, searched, searching, run⟩ := bind_eq_ok.mp run
          cases reaches with
          | false =>
              obtain ⟨rfl, _⟩ := EStateM.Result.ok.inj run
              cases takesPart
          | true =>
              have workedUnasked := settledUnasked.consults ((relevantSlots_consults id kind).of_ok working)
              obtain ⟨earlier, searching'⟩ := reachesHook_earlier stays workedUnasked searching
              rw [bind_run_of_ok searching'] at run'
              obtain ⟨steps, filtered, _, run'⟩ := bind_eq_ok.mp run'
              obtain ⟨rfl, _⟩ := EStateM.Result.ok.inj run'
              rfl

theorem resolve_eq_determine {hooks : Registry} {kind : OpKind} {fuel : Nat} {id : TypeId}
    {resolver final : Resolver} {operation : Operation} (unasked : Unasked table resolver)
    (run : resolve hooks fuel id kind resolver = .ok operation final) :
    ∃ later, determine hooks fuel id kind resolver = .ok operation.outcome later := by
  have unknown : known? id kind resolver = .ok none resolver := by simp [known?_run, unasked.unresolved]
  unfold resolve at run
  split at run
  · cases run
  · rw [bind_run_of_ok unknown] at run
    obtain ⟨outcome, later, determining, run⟩ := bind_eq_ok.mp run
    obtain ⟨rfl, _⟩ := EStateM.Result.ok.inj run
    exact ⟨later, determining⟩

theorem resolve_stays (stays : table.StaysOverridden hooks more) {kind : OpKind} {fuel fuel' : Nat} {id : TypeId}
    {resolver final final' : Resolver} {operation other : Operation} (unasked : Unasked table resolver)
    (run : resolve hooks fuel id kind resolver = .ok operation final)
    (run' : resolve more fuel' id kind resolver = .ok other final')
    (takesPart : operation.isBuiltIn = false) : other.isBuiltIn = false := by
  -- Both runs give the same answers with the larger budget.
  have enough := resolve_steady hooks id kind fuel (max fuel fuel') (by omega) _ _ _ run
  have enough' := resolve_steady more id kind fuel' (max fuel fuel') (by omega) _ _ _ run'
  obtain ⟨_, determining⟩ := resolve_eq_determine unasked enough
  obtain ⟨_, determining'⟩ := resolve_eq_determine unasked enough'
  exact determine_stays stays unasked determining determining' takesPart

end Fresh

/-- Two resolvers that share a type table but not their hooks, after queries to either of them
that were all answered. -/
inductive TwinRun (hooks more : Registry) (table : TypeTable) : Resolver → Resolver → Prop where
  | start : TwinRun hooks more table { table := table } { table := table }
  | first {first second later : Resolver} (earlier : TwinRun hooks more table first second)
      {fuel : Nat} {query : Query} (answered : query.ask hooks fuel first = .ok () later) :
      TwinRun hooks more table later { second with table := later.table }
  | second {first second later : Resolver} (earlier : TwinRun hooks more table first second)
      {fuel : Nat} {query : Query} (answered : query.ask more fuel second = .ok () later) :
      TwinRun hooks more table { first with table := later.table } later

section Twins

variable {hooks more : Registry} {table : TypeTable} {first second : Resolver} {kind : OpKind} {id : TypeId}

/-- What holds of two resolvers with different hooks that share a type table. -/
structure Twins (hooks more : Registry) (table : TypeTable) (first second : Resolver) : Prop where
  firstSound : first.Sound hooks
  secondSound : second.Sound more
  sameTable : first.table = second.table
  extends_ : table.Extends first.table

theorem TwinRun.twins (run : TwinRun hooks more table first second) : Twins hooks more table first second := by
  have fresh (hooks : Registry) : Sound hooks { table := table } :=
    { ready := Reached.start.ready
      explored := ⟨rfl, rfl, by simp, by simp, by simp⟩ }
  induction run with
  | start => exact ⟨fresh hooks, fresh more, rfl, .refl table⟩
  | first earlier answered ih =>
      have extends_ := Query.ask_table_extends answered
      exact ⟨ih.firstSound.asked answered, ih.secondSound.shared (ih.sameTable ▸ extends_), rfl,
        ih.extends_.trans extends_⟩
  | second earlier answered ih =>
      have extends_ := Query.ask_table_extends answered
      exact ⟨ih.firstSound.shared (ih.sameTable ▸ extends_), ih.secondSound.asked answered, rfl,
        (ih.sameTable ▸ ih.extends_).trans extends_⟩

theorem Twins.agrees (twins : Twins hooks more table first second) (same : SameTypes first second) :
    Agrees first second where
  sameTable := twins.sameTable
  held id held clear := twins.secondSound.not_endless_of_clear clear
    ((same id (.inl held) (.inr clear)).mp (twins.firstSound.endless_of_held held))
  clear id clear held := twins.firstSound.not_endless_of_clear clear
    ((same id (.inr clear) (.inl held)).mpr (twins.secondSound.endless_of_held held))

/-- A path to a hook for one resolver does not start in a region without hooks for a resolver
with further hooks. -/
theorem HookPath.not_unhooked_with (stays : table.StaysOverridden hooks more)
    (twins : Twins hooks more table first second) (agrees : Agrees first second)
    (path : HookPath hooks kind first first.Clear id) : ¬ second.Unhooked more kind id := by
  rintro ⟨region, member, barren⟩
  induction path with
  | overridden clear hook =>
      cases barren _ member with
      | held held => exact agrees.clear _ clear held
      | clear _ unbound _ _ =>
          obtain ⟨other, hook⟩ := stays _ twins.extends_ kind _ _ hook
          have governs := TypeTable.governingHook?_eq_ok_some.mpr (agrees.sameTable ▸ hook)
          cases governs.symm.trans unbound
  | constituent clear parts isSlot path ih =>
      cases barren _ member with
      | held held => exact agrees.clear _ clear held
      | clear _ _ otherParts inside =>
          obtain rfl := relevantSlots_agree agrees.sameTable parts otherParts
          exact ih (inside _ isSlot)

/-- An operation that is not built in for one resolver is not built in for one with further
hooks, as far as their verdicts make the same types endless. -/
theorem TwinRun.stays {fuel fuel' : Nat} {operation other : Operation} {first' second' : Resolver}
    (stays : table.StaysOverridden hooks more) (twin : TwinRun hooks more table first second)
    (run : resolve hooks fuel id kind first = .ok operation first')
    (run' : resolve more fuel' id kind { second with table := first'.table } = .ok other second')
    (same : SameTypes { first' with table := second'.table } second')
    (takesPart : operation.isBuiltIn = false) : other.isBuiltIn = false := by
  have answered : (Query.resolve id kind).ask hooks fuel first = .ok () first' := answered_of_ok run
  have answered' : (Query.resolve id kind).ask more fuel' { second with table := first'.table } = .ok () second' :=
    answered_of_ok run'
  have asked := twin.first answered
  have both := (asked.second answered').twins
  have extends_ : ({ second with table := first'.table } : Resolver).table.Extends second'.table :=
    Query.ask_table_extends answered'
  have grows : first'.Consults { first' with table := second'.table } := consults_table extends_
  obtain ⟨ready, _, _, explained⟩ := resolve_explained twin.twins.firstSound.ready run
  obtain ⟨_, _, _, explained'⟩ := resolve_explained asked.twins.secondSound.ready run'
  have path := (explained.hookPath takesPart).extends_ grows.toExtends fun _ clear =>
    clear.extends_ ready.idle grows.toExtends
  by_contra builtIn
  exact path.not_unhooked_with stays both (both.agrees same) (explained'.unhooked (by simpa [Operation.isBuiltIn] using builtIn))

end Twins

/-- After a further hook that a declaration is bound as, an operation that was not built in is
not built in either, unless the hook is a deep copy that shadows one for the other indirection.
This holds of resolvers that are asked nothing else, and of resolvers that were asked other
queries as far as their verdicts make the same types endless. -/
theorem bind_stays {table : TypeTable} {registry : Registry} {reported : List Diagnostic} {decl : HookDecl}
    {entry : HookEntry} {binder : Binder} (built : table.Built) (isOver : decl.IsOver table)
    (bound : Binder.bind table decl { registry := registry, diagnostics := reported } = .ok (some entry) binder)
    (compatible : registry.Compatible table entry) :
    (∀ fuel fuel' id kind operation other final final',
      resolve registry.freeze fuel id kind { table := table } = .ok operation final →
      resolve binder.registry.freeze fuel' id kind { table := table } = .ok other final' →
      operation.isBuiltIn = false → other.isBuiltIn = false) ∧
    ∀ first second, TwinRun registry.freeze binder.registry.freeze table first second →
      ∀ fuel fuel' id kind operation other first' second',
        resolve registry.freeze fuel id kind first = .ok operation first' →
        resolve binder.registry.freeze fuel' id kind { second with table := first'.table } = .ok other second' →
        SameTypes { first' with table := second'.table } second' →
        operation.isBuiltIn = false → other.isBuiltIn = false := by
  rcases Binder.bind_cases bound with ⟨_, impossible⟩ | ⟨_, isEntry, accepts, _, entries⟩
  · cases impossible
  · obtain rfl := Option.some.inj isEntry
    have has : table.Has entry.target := (HookDecl.declares_of_accepts built.regular isOver accepts).has built.regular.toWellFormed
    have stays : table.StaysOverridden registry.freeze binder.registry.freeze :=
      Registry.staysOverridden_bound entries has compatible
    have unasked : Unasked table { table := table } := ⟨rfl, .refl table⟩
    exact ⟨fun _ _ _ _ _ _ _ _ run run' => resolve_stays stays unasked run run',
      fun _ _ twin _ _ _ _ _ _ _ _ run run' same => twin.stays stays run run' same⟩

/-- A further hook never makes an operation built in. -/
def HooksMonotone : Prop :=
  ∀ (table : TypeTable) (registry : Registry) (decl : HookDecl) (entry : HookEntry) (binder : Binder)
    (fuel fuel' : Nat) (id : TypeId) (kind : OpKind) (operation other : Operation) (final final' : Resolver),
    table.Built → decl.IsOver table →
    Binder.bind table decl { registry := registry } = .ok (some entry) binder →
    resolve registry.freeze fuel id kind { table := table } = .ok operation final →
    resolve binder.registry.freeze fuel' id kind { table := table } = .ok other final' →
    operation.isBuiltIn = false → other.isBuiltIn = false

/-- Lists, with the instances for a type variable and for integers and with references and
pointers to them. -/
def linkedTable : TypeTable :=
  TypeTable.after {} [.object "List" ["T"] {}, .int, .instantiate 1 [2], .instantiate 1 [3],
    .wrap .ref 4, .wrap .ref 5, .wrap .ptr 5]

/-- A deep copy of references or pointers to lists, or to lists of integers. -/
def linkedHook (param : TypeId) : HookDecl :=
  { name := "=deepCopy", impl := "clone", params := [param], result := param }

/-- The deep copy as it is bound. -/
def linkedEntry (target param : TypeId) (indirection : Indirection) : HookEntry :=
  { kind := .deepCopy, target := target, params := [param], result := param, impl := "clone"
    indirection := some indirection }

/-- The deep copy of references to lists is bound. -/
def linkedHooks : Registry := { entries := [linkedEntry 1 6 .ref] }

/-- What binding a further deep copy leaves. -/
def furtherBinder (param : TypeId) : Binder :=
  (Binder.bind linkedTable (linkedHook param)).finish { registry := linkedHooks }

theorem linkedTable_built : linkedTable.Built :=
  TypeTable.Built.empty.after (by decide +kernel)

theorem bind_stays_linked :
    ∃ other final, resolve (furtherBinder 7).registry.freeze 9 7 .deepCopy { table := linkedTable } = .ok other final ∧
      other.isBuiltIn = false := by
  have bound : (Binder.bind linkedTable (linkedHook 7)).result? { registry := linkedHooks } =
      some (some (linkedEntry 5 7 .ref)) := by decide +kernel
  have isOver : (linkedHook 7).IsOver linkedTable := by decide +kernel
  have compatible : linkedHooks.Compatible linkedTable (linkedEntry 5 7 .ref) := by
    intro _ head args other _ found
    have isEntry := List.mem_of_find?_eq_some found
    obtain rfl := List.mem_singleton.mp isEntry
    rfl
  have run : (resolve linkedHooks.freeze 9 7 .deepCopy).result? { table := linkedTable } =
      some ⟨7, .deepCopy, .overridden (linkedEntry 1 6 .ref)⟩ := by decide +kernel
  have run' : (resolve (furtherBinder 7).registry.freeze 9 7 .deepCopy).result? { table := linkedTable } =
      some ⟨7, .deepCopy, .overridden (linkedEntry 5 7 .ref)⟩ := by decide +kernel
  refine ⟨_, _, run_of_result? run', ?_⟩
  exact (bind_stays linkedTable_built isOver (run_of_result? bound) compatible).1 _ _ _ _ _ _ _ _
    (run_of_result? run) (run_of_result? run') rfl

/-- A deep copy of pointers to lists of integers takes the one of references to lists away from
references to lists of integers. -/
theorem not_hooksMonotone : ¬ HooksMonotone := by
  intro monotone
  have bound : (Binder.bind linkedTable (linkedHook 8)).result? { registry := linkedHooks } =
      some (some (linkedEntry 5 8 .ptr)) := by decide +kernel
  have isOver : (linkedHook 8).IsOver linkedTable := by decide +kernel
  have run : (resolve linkedHooks.freeze 9 7 .deepCopy).result? { table := linkedTable } =
      some ⟨7, .deepCopy, .overridden (linkedEntry 1 6 .ref)⟩ := by decide +kernel
  have run' : (resolve (furtherBinder 8).registry.freeze 9 7 .deepCopy).result? { table := linkedTable } =
      some ⟨7, .deepCopy, .builtIn⟩ := by decide +kernel
  cases monotone _ _ _ _ _ _ _ _ _ _ _ _ _ linkedTable_built isOver (run_of_result? bound)
    (run_of_result? run) (run_of_result? run') rfl

end Resolver
end LifecycleHooks

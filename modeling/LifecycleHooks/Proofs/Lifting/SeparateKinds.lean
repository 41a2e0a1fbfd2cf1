import LifecycleHooks.Proofs.Lifting.FurtherHooks
import LifecycleHooks.Proofs.Lifting.Likeness
import LifecycleHooks.Proofs.Lifting.RecursionReports

/-!
# The kinds of operations do not interfere

All kinds of operations share the state of a resolver, so a query about one kind changes what
the resolver knows when it is asked about another one.  Where no order of judgements finds a
growing object, that never shows.  Two resolvers that share a type table give the same
operations and the same plans of a kind as soon as their registries have the same entries of
this kind, whatever hooks of other kinds they have and whatever either was asked before.
-/

namespace LifecycleHooks

open Attempt ResolveM Resolver TypeTable

/-- Two registries have the same entries of a kind. -/
def Registry.AgreeOn (kind : OpKind) (hooks more : Registry) : Prop :=
  ∀ target, hooks.lookup target kind = more.lookup target kind

section Agreeing

variable {hooks more : Registry} {kind : OpKind} {table : TypeTable} {resolver : Resolver} {id : TypeId}

theorem Registry.agreeOn_of_filter (same : hooks.entries.filter (·.kind = kind) = more.entries.filter (·.kind = kind)) :
    AgreeOn kind hooks more := by
  have ofKind (registry : Registry) (target : TypeId) : registry.lookup target kind =
      (registry.entries.filter (·.kind = kind)).find? fun entry => entry.target = target := by
    rw [List.find?_filter, lookup]
    simp only [decide_eq_true_eq, and_comm, Bool.decide_and]
  intro target
  rw [ofKind, ofKind, same]

theorem TypeTable.nominalHook?_of_agreeOn (agree : Registry.AgreeOn kind hooks more) :
    table.nominalHook? hooks id kind = table.nominalHook? more id kind := by
  have same (target : TypeId) : hooks.lookup target kind = more.lookup target kind := agree target
  simp only [nominalHook?, same]

theorem TypeTable.governingHook?_of_agreeOn (agree : Registry.AgreeOn kind hooks more) :
    table.governingHook? hooks id kind = table.governingHook? more id kind := by
  unfold governingHook?
  refine bind_congr fun type => ?_
  split <;> simp only [nominalHook?_of_agreeOn agree]

theorem TypeTable.Overridden.with_hooks {entry : HookEntry} (agree : Registry.AgreeOn kind hooks more)
    (hook : table.Overridden hooks kind id entry) : table.Overridden more kind id entry := by
  rw [← governingHook?_eq_ok_some, governingHook?_of_agreeOn agree] at hook
  exact governingHook?_eq_ok_some.mp hook

theorem Resolver.HookPath.with_hooks {sound : TypeId → Prop} (agree : Registry.AgreeOn kind hooks more)
    (path : HookPath hooks kind resolver sound id) : HookPath more kind resolver sound id := by
  induction path with
  | overridden isSound hook => exact .overridden isSound (hook.with_hooks agree)
  | constituent isSound parts member _ ih => exact .constituent isSound parts member ih

theorem Resolver.Unhooked.with_hooks (agree : Registry.AgreeOn kind hooks more)
    (unhooked : resolver.Unhooked hooks kind id) : resolver.Unhooked more kind id := by
  obtain ⟨region, member, barren⟩ := unhooked
  refine ⟨region, member, fun other inside => ?_⟩
  cases barren other inside with
  | held held => exact .held held
  | clear clear unbound parts stays =>
      rw [governingHook?_of_agreeOn agree] at unbound
      exact .clear clear unbound parts stays

/-- Hooks of other kinds take no part in why an operation comes out as it does. -/
theorem Resolver.Explained.with_hooks {outcome : Outcome} (agree : Registry.AgreeOn kind hooks more)
    (explained : Explained hooks kind resolver id outcome) : Explained more kind resolver id outcome := by
  cases explained with
  | builtIn unhooked => exact .builtIn (unhooked.with_hooks agree)
  | overridden clear hook => exact .overridden clear (hook.with_hooks agree)
  | lifted clear unbound parts path chosen leftOut =>
      rw [governingHook?_of_agreeOn agree] at unbound
      exact .lifted clear unbound parts (path.with_hooks agree)
        (fun slot member takes => (chosen slot member takes).with_hooks agree)
        (fun slot member leaves => (leftOut slot member leaves).with_hooks agree)

end Agreeing

namespace Resolver

section Unalarmed

variable {hooks more : Registry} {table : TypeTable} {ids : List TypeId} {first second resolver later : Resolver}
  {id : TypeId}

/-- A resolver that is ready for queries about some existing types, and that judges no generic
object to grow. -/
structure Unalarmed (hooks : Registry) (ids : List TypeId) (resolver : Resolver) : Prop where
  ready : resolver.Ready hooks
  founded : resolver.Founded
  judging : resolver.judging = []
  allShallow : resolver.table.AllShallow
  has : ∀ id ∈ ids, resolver.table.Has id

theorem unalarmed_fresh (hooks : Registry) (regular : table.Regular) (allShallow : table.AllShallow) :
    Unalarmed hooks [] { table := table } where
  ready := Reached.start.ready
  founded := fresh_founded regular
  judging := rfl
  allShallow := allShallow
  has := by simp

theorem Unalarmed.about (unalarmed : resolver.Unalarmed hooks []) (has : ∀ id ∈ ids, resolver.table.Has id) :
    resolver.Unalarmed hooks ids :=
  { unalarmed with has := has }

/-- Queries leave it so that no generic object is judged to grow. -/
theorem allShallow_leadsQueries (hooks : Registry) :
    LeadsQueries hooks (Lasts fun resolver => resolver.Founded ∧ resolver.judging = [] ∧ resolver.table.AllShallow)
      (Lasts fun resolver => resolver.Founded ∧ resolver.judging = [] ∧ resolver.table.AllShallow) := by
  apply (founded_leadsQueries hooks).both (intact_leadsQueries hooks)
  rintro resolver later founds stays ⟨founded, judging, allShallow⟩
  obtain ⟨_, unfolds⟩ := stays founded.intact
  obtain ⟨laterFounded, laterJudging⟩ := founds ⟨founded, judging⟩
  exact ⟨laterFounded, laterJudging, allShallow.unfolds founded.intact.regular.toWellFormed unfolds⟩

/-- Whatever is asked next, the resolver stays unalarmed. -/
theorem unalarmed_leadsQueries (hooks : Registry) (ids : List TypeId) :
    LeadsQueries hooks (Lasts (Unalarmed hooks ids)) (Lasts (Unalarmed hooks ids)) := by
  have stands : LeadsQueries hooks (fun resolver later => Lasts (Ready hooks) resolver later ∧ resolver.Extends later)
      fun resolver later => Lasts (Ready hooks) resolver later ∧ resolver.Extends later :=
    (ready_leadsQueries hooks).both (extends_leadsQueries hooks) fun _ _ readies extends_ => ⟨readies, extends_⟩
  apply (allShallow_leadsQueries hooks).both stands
  rintro resolver later shallow ⟨readies, extends_⟩ unalarmed
  obtain ⟨founded, judging, allShallow⟩ := shallow ⟨unalarmed.founded, unalarmed.judging, unalarmed.allShallow⟩
  exact ⟨readies unalarmed.ready, founded, judging, allShallow,
    fun id member => (unalarmed.has id member).extends_ extends_.table⟩

/-- A larger table without types of new shapes leaves the resolver unalarmed. -/
theorem Unalarmed.grown {larger : TypeTable} (unalarmed : resolver.Unalarmed hooks ids) (regular : larger.Regular)
    (unfolds : resolver.table.Unfolds larger) : Unalarmed hooks ids { resolver with table := larger } where
  ready := unalarmed.ready.consults (consults_table unfolds.extends_)
  founded := unalarmed.founded.extends_ (unalarmed.founded.intact.grown regular unfolds.extends_) unfolds.extends_ rfl
  judging := unalarmed.judging
  allShallow := unalarmed.allShallow.unfolds unalarmed.founded.intact.regular.toWellFormed unfolds
  has id member := (unalarmed.has id member).extends_ unfolds.extends_

/-- No generic object was judged to grow. -/
theorem Unalarmed.not_growing (unalarmed : resolver.Unalarmed hooks ids) {head : TypeId} {grows : Bool}
    (known : resolver.growth.lookup head = some grows) : grows = false := by
  cases grows with
  | false => rfl
  | true =>
      obtain ⟨generic, deep⟩ := unalarmed.founded.founded head known
      exact absurd (unalarmed.allShallow head generic) deep

theorem Unalarmed.sameVerdicts {others : List TypeId} (unalarmed : first.Unalarmed hooks ids)
    (unalarmedToo : second.Unalarmed more others) : SameVerdicts first second := fun _ _ _ known otherKnown => by
  rw [unalarmed.not_growing known, unalarmedToo.not_growing otherKnown]

section Answering

theorem Unalarmed.prepared (unalarmed : resolver.Unalarmed hooks ids) (member : id ∈ ids) :
    resolver.Prepared hooks (resolver.reach id) [id] where
  confined := confined_reach unalarmed.founded.intact unalarmed.judging id
  ready := unalarmed.ready
  within := List.forall_mem_singleton.mpr ⟨unalarmed.has id member, .refl⟩

theorem Unalarmed.finite_reach (unalarmed : resolver.Unalarmed hooks ids) (member : id ∈ ids) :
    (resolver.reach id).Finite :=
  (unalarmed.founded.intact.regular.toWellFormed.finite_contents unalarmed.allShallow (unalarmed.has id member)).subset
    (reach_subset_contents resolver id)

/-- Every query about existing types is answered. -/
theorem Unalarmed.query_settles {query : Query} (unalarmed : resolver.Unalarmed hooks query.subjects)
    (frozen : hooks.frozen = true) :
    Settles (fun _ later => later.Unalarmed hooks query.subjects) (fun fuel => query.ask hooks fuel) resolver :=
  ResolveM.query_settles frozen (unalarmed_leadsQueries hooks query.subjects) (fun _ _ unalarmed member =>
    ⟨_, _, unalarmed.finite_reach member, prepared_iff.mp (unalarmed.prepared member)⟩) unalarmed

/-- So is every computation that a query about existing types carries out. -/
theorem Unalarmed.settles_of_query {Result : Type} {action : Nat → ResolveM Result} {query : Query}
    (unalarmed : resolver.Unalarmed hooks query.subjects) (frozen : hooks.frozen = true)
    (asks : ∀ fuel, query.ask hooks fuel = do let _ ← action fuel) (steady : Steady action) :
    Settles (fun _ _ => True) action resolver := by
  obtain ⟨_, _, _, answers⟩ := unalarmed.query_settles frozen
  obtain ⟨fuel, asked⟩ := answers.exists
  simp only [asks] at asked
  obtain ⟨_, _, answered, _⟩ := bind_eq_ok.mp asked
  exact steady.settles answered trivial

end Answering
end Unalarmed

section Twins

variable {hooks more : Registry} {kind : OpKind} {table : TypeTable} {first second : Resolver} {id : TypeId}

theorem TwinRun.unalarmed (run : TwinRun hooks more table first second) (built : table.Built)
    (allShallow : table.AllShallow) : first.Unalarmed hooks [] ∧ second.Unalarmed more [] := by
  induction run with
  | start => exact ⟨unalarmed_fresh hooks built.regular allShallow, unalarmed_fresh more built.regular allShallow⟩
  | @first first second later earlier fuel query answered ih =>
      have asked := (query.ask_leads (unalarmed_leadsQueries hooks []) fuel).of_ok answered ih.1
      obtain ⟨_, unfolds⟩ :=
        (query.ask_leads (intact_leadsQueries hooks) fuel).of_ok answered ih.1.founded.intact
      exact ⟨asked, ih.2.grown asked.founded.intact.regular (earlier.twins.sameTable ▸ unfolds)⟩
  | @second first second later earlier fuel query answered ih =>
      have asked := (query.ask_leads (unalarmed_leadsQueries more []) fuel).of_ok answered ih.2
      obtain ⟨_, unfolds⟩ :=
        (query.ask_leads (intact_leadsQueries more) fuel).of_ok answered ih.2.founded.intact
      exact ⟨ih.1.grown asked.founded.intact.regular (earlier.twins.sameTable ▸ unfolds), asked⟩

/-- Where no generic object is judged to grow, two resolvers are alike in each kind of which they
have the same entries. -/
theorem TwinRun.alike (run : TwinRun hooks more table first second) (built : table.Built)
    (allShallow : table.AllShallow) (agree : Registry.AgreeOn kind hooks more) : Alike kind first second := by
  have twins := run.twins
  obtain ⟨unalarmed, unalarmedToo⟩ := run.unalarmed built allShallow
  have agrees := agrees_of_explored twins.firstSound.explored twins.secondSound.explored twins.sameTable
    (unalarmed.sameVerdicts unalarmedToo)
  refine ⟨agrees, fun id outcome other known otherKnown => ?_⟩
  exact ((unalarmed.ready.explained id kind outcome known).with_hooks agree).agrees agrees
    (unalarmedToo.ready.explained id kind other otherKnown)

/-- Every large enough budget leads two resolvers to the same answer, the second one working on
the table as the first one has left it. -/
def SameAnswer {Result : Type} (first second : Resolver) (action other : Nat → ResolveM Result) : Prop :=
  Settles (fun answer final =>
    Settles (fun answer' _ => answer' = answer) other { second with table := final.table }) action first

/-- Asked a query about existing types next, the two resolvers give the same answer, if alike
resolvers do. -/
theorem TwinRun.sameAnswer {Result : Type} (run : TwinRun hooks more table first second) (built : table.Built)
    (allShallow : table.AllShallow) (agree : Registry.AgreeOn kind hooks more) (frozen : hooks.frozen = true)
    (frozenToo : more.frozen = true) (query : Query) (has : ∀ id ∈ query.subjects, first.table.Has id)
    (action : Registry → Nat → ResolveM Result)
    (asks : ∀ registry fuel, query.ask registry fuel = do let _ ← action registry fuel)
    (steady : ∀ registry, Steady (action registry))
    (alike : ∀ fuel fuel', AnswersAlike kind (action hooks fuel) (action more fuel')) :
    SameAnswer first second (action hooks) (action more) := by
  have unalarmed := (run.unalarmed built allShallow).1.about has
  refine (unalarmed.settles_of_query frozen (asks hooks) (steady hooks)).mono fun answer final fuel asked _ => ?_
  have answered : query.ask hooks fuel first = .ok () final := by
    rw [asks]
    exact answered_of_ok asked
  have between := run.first answered
  have grows : first.table.Extends final.table := Query.ask_table_extends answered
  have unalarmedToo := (between.unalarmed built allShallow).2.about fun id member => (has id member).extends_ grows
  refine (unalarmedToo.settles_of_query frozenToo (asks more) (steady more)).mono fun answer' final' fuel' asked' _ => ?_
  have answered' : query.ask more fuel' { second with table := final.table } = .ok () final' := by
    rw [asks]
    exact answered_of_ok asked'
  have growsOn : ({ second with table := final.table } : Resolver).table.Extends final'.table :=
    Query.ask_table_extends answered'
  have onwards : final.Consults { final with table := final'.table } := consults_table growsOn
  have gave : Gave (action hooks fuel) answer { final with table := final'.table } :=
    ⟨first, final, run.twins.firstSound.ready.idle, asked, onwards.toExtends⟩
  have gave' : Gave (action more fuel') answer' final' :=
    ⟨_, final', between.twins.secondSound.ready.idle, asked', refl_of Extends final'⟩
  exact ((alike fuel fuel').same ((between.second answered').alike built allShallow agree) gave gave').symm

/-- Where no order of judgements finds a growing object, the operations and the plans of a kind are the
same for two resolvers whose registries have the same entries of the kind, whatever other hooks
they have and whatever either was asked before. -/
theorem TwinRun.kinds_do_not_interfere (run : TwinRun hooks more table first second) (built : table.Built)
    (never : NeverGrows table) (frozen : hooks.frozen = true) (frozenToo : more.frozen = true)
    (agree : Registry.AgreeOn kind hooks more) (has : first.table.Has id) :
    SameAnswer first second (fun fuel => resolve hooks fuel id kind) (fun fuel => resolve more fuel id kind) ∧
    (∀ place, SameAnswer first second (fun fuel => expand hooks fuel id kind place)
      (fun fuel => expand more fuel id kind place)) ∧
    (kind = .deepCopy → ∀ place, SameAnswer first second (fun fuel => copyPlan hooks fuel id place)
      (fun fuel => copyPlan more fuel id place)) := by
  have allShallow := never.allShallow built.regular
  have exists_ : ∀ other ∈ [id], first.table.Has other := List.forall_mem_singleton.mpr has
  refine ⟨?_, fun place => ?_, ?_⟩
  · exact run.sameAnswer built allShallow agree frozen frozenToo (.resolve id kind) exists_
      (fun registry fuel => resolve registry fuel id kind) (fun _ _ => rfl)
      (fun registry => resolve_steady registry id kind) fun fuel fuel' => resolve_alike hooks more fuel fuel' id
  · exact run.sameAnswer built allShallow agree frozen frozenToo (.expand id kind place) exists_
      (fun registry fuel => expand registry fuel id kind place) (fun _ _ => rfl)
      (fun registry => expandWithin_steady registry kind [] id place)
      fun fuel fuel' => expandWithin_alike hooks more fuel fuel' [] id place
  · rintro rfl place
    exact run.sameAnswer built allShallow agree frozen frozenToo (.copyPlan id place) exists_
      (fun registry fuel => copyPlan registry fuel id place) (fun _ _ => rfl)
      (fun registry => copyWithin_steady registry [] id place)
      fun fuel fuel' => copyWithin_alike hooks more fuel fuel' [] id place

/-- Letters with a reference to a text and a box with another one. -/
def letterTable : TypeTable :=
  TypeTable.after {} [.object "Text" [] {}, .wrap .ref 1, .object "Box" ["T"] {}, .define 3 { fields := [⟨"held", 4⟩] },
    .instantiate 3 [1], .object "Letter" [] {}, .define 6 { fields := [⟨"text", 2⟩, ⟨"enclosure", 5⟩] }]

/-- The deep copy of references to texts. -/
def textCopy : HookEntry :=
  { kind := .deepCopy, target := 1, params := [2], result := 2, impl := "copyText", indirection := some .ref }

/-- References to texts have a hook for deep copies. -/
def copyingHooks : Registry where
  entries := [textCopy]
  frozen := true

/-- Texts have a hook for destruction too. -/
def letterHooks : Registry where
  entries := [{ kind := .destroy, target := 1, params := [], result := 1, impl := "dropText" }, textCopy]
  frozen := true

theorem letterTable_built : letterTable.Built :=
  TypeTable.Built.empty.after (by decide +kernel)

theorem letterTable_neverGrows : NeverGrows letterTable :=
  neverGrows_of_leadsToEachOther letterTable_built.regular (by decide +kernel) (by decide +kernel)

/-- The destruction of texts, and a query about the destruction of letters, leave the copies of
letters as they are. -/
theorem letters_copied_alike :
    ∃ first second, TwinRun letterHooks copyingHooks letterTable first second ∧
      ((6, .destroy), .lifted [⟨.field "enclosure", 5⟩]) ∈ first.operations ∧
      SameAnswer first second (fun fuel => resolve letterHooks fuel 6 .deepCopy)
        (fun fuel => resolve copyingHooks fuel 6 .deepCopy) ∧
      ∀ place, SameAnswer first second (fun fuel => copyPlan letterHooks fuel 6 place)
        (fun fuel => copyPlan copyingHooks fuel 6 place) := by
  let asking := (Query.resolve 6 .destroy).ask letterHooks 9
  have answered : asking.result? { table := letterTable } = some () := by decide +kernel
  have kept : ((6, .destroy), .lifted [⟨.field "enclosure", 5⟩]) ∈
      (asking.finish { table := letterTable }).operations := by decide +kernel
  obtain ⟨first, asked, kept⟩ : ∃ first, asking { table := letterTable } = .ok () first ∧
      ((6, .destroy), .lifted [⟨.field "enclosure", 5⟩]) ∈ first.operations := ⟨_, run_of_result? answered, kept⟩
  have run : TwinRun letterHooks copyingHooks letterTable first { table := first.table } := TwinRun.start.first asked
  have isLetter : (letterTable.get? 6).isSome = true := by decide +kernel
  have agree : Registry.AgreeOn .deepCopy letterHooks copyingHooks := Registry.agreeOn_of_filter rfl
  obtain ⟨same, _, copied⟩ := run.kinds_do_not_interfere letterTable_built letterTable_neverGrows rfl rfl agree
    (TypeTable.Has.extends_ isLetter run.twins.extends_)
  exact ⟨first, _, run, kept, same, copied rfl⟩

end Twins
end Resolver
end LifecycleHooks

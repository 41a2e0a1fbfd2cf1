import LifecycleHooks.Proofs.Lifting.BackEdges
import LifecycleHooks.Proofs.Lifting.Likeness
import LifecycleHooks.Proofs.Lifting.Recurrence

/-!
# Queries that fail

A query fails for want of a type when it comes upon an id that the table has not handed out.
A failure that leaves the resolver unscathed leaves no trace: the query fails again each time it
is asked, and other queries are answered as by a resolver that was never asked it.  A failure
in the midst of an exploration does leave one.
-/

namespace LifecycleHooks

open Attempt ResolveM Resolver

namespace Resolver

variable {hooks : Registry} {table : TypeTable} {resolver later : Resolver}

section Naming

theorem Named.grown {resolver later : Resolver} (named : resolver.Named)
    (extends_ : resolver.table.Extends later.table) (same : later.reported = resolver.reported) : later.Named := by
  intro id member
  obtain ⟨name, spelled⟩ := named id (same ▸ member)
  exact ⟨name, TypeTable.stable_spell id _ _ name extends_ spelled⟩

/-- A type that is reported has been named. -/
theorem reportGrowth_names (head : TypeId) : (reportGrowth head).Leads (Lasts Named) fun _ _ => True := by
  refine leads_of_ok fun resolver _ final run named => ?_
  unfold reportGrowth at run
  rw [get_bind_run] at run
  split at run
  · rw [modify_bind_run] at run
    obtain ⟨name, _, asked, run⟩ := bind_eq_ok.mp run
    obtain ⟨spelled, rfl⟩ := ask_eq_ok.mp asked
    obtain ⟨_, _, asked, run⟩ := bind_eq_ok.mp run
    obtain ⟨-, rfl⟩ := ask_eq_ok.mp asked
    obtain ⟨_, rfl⟩ := EStateM.Result.ok.inj run
    exact List.forall_mem_cons.mpr ⟨⟨name, spelled⟩, named⟩
  · obtain ⟨_, rfl⟩ := EStateM.Result.ok.inj run
    exact named

theorem reportCycle_names (id : TypeId) (cycle : List TypeId) :
    (reportCycle id cycle).Leads (Lasts Named) fun _ _ => True := by
  refine leads_of_ok fun resolver _ final run named => ?_
  unfold reportCycle at run
  rw [get_bind_run] at run
  split at run
  · rw [modify_bind_run] at run
    have spells (member : TypeId) : (ask (·.spell member)).Preserves Eq := ask_leads _
    obtain ⟨names, _, asked, run⟩ := bind_eq_ok.mp run
    obtain rfl := (leads_mapM fun member _ => spells member).of_ok asked
    have told := mapM_tells (fun before member name => before.table.spell member = .ok name) spells
      (fun member before after name run => by
        obtain ⟨spelled, rfl⟩ := ask_eq_ok.mp run
        exact spelled)
      (fun _ _ _ _ spelled same => same ▸ spelled) asked
    have each := told.imp fun _ name spelled => And.intro (Exists.intro name spelled) spelled
    have spelled := ((List.forall₂_and_left cycle names).mp each).1
    obtain ⟨_, _, asked, run⟩ := bind_eq_ok.mp run
    obtain ⟨-, rfl⟩ := ask_eq_ok.mp asked
    obtain ⟨_, rfl⟩ := EStateM.Result.ok.inj run
    exact List.forall_mem_append.mpr ⟨spelled, named⟩
  · obtain ⟨_, rfl⟩ := EStateM.Result.ok.inj run
    exact named

theorem exploreOnce_names (fuel : Nat) (id : TypeId) : (exploreOnce fuel id).Leads (Lasts Named) fun _ _ => True := by
  refine leads_of_ok fun resolver _ final run named => ?_
  have extends_ := ((exploreOnce_consults fuel id).of_ok run).table
  unfold exploreOnce at run
  rw [get_bind_run] at run
  split at run
  · rename_i new
    obtain ⟨explored, explores, rfl⟩ := andFinally_eq_ok.mp run
    have reported : explored.reported = resolver.reported :=
      finish_of_ok explores ▸ (explore_explores fuel id resolver new).reported
    exact named.grown extends_ reported
  · obtain ⟨_, rfl⟩ := EStateM.Result.ok.inj run
    exact named

/-- What is reported by queries that are answered can be named. -/
theorem named_leadsQueries (hooks : Registry) : LeadsQueries hooks (Lasts Named) fun _ _ => True := by
  have judges {resolver later : Resolver} (judges : resolver.Judges later) : Lasts Named resolver later :=
    fun named => named.grown judges.table judges.reported
  apply leadsQueries_of_verdicts hooks
  · constructor
    case bodies => exact fun id => (body_judges id).mono (fun _ _ => judges) fun _ _ _ => trivial
    case constituents => exact fun id => (constituents_judges id).mono (fun _ _ => judges) fun _ _ _ => trivial
    case unresolvable =>
      intro fuel id
      have grows : (growsForever fuel id).Leads (Lasts Named) fun _ _ => True :=
        (growsForever_judges fuel id).mono (fun _ _ => judges) fun _ _ _ => trivial
      refine grows.bind fun grows => ?_
      split
      · exact (ask_leads _).bind fun _ => (reportGrowth_names _).bind fun _ => leads_pure _
      · refine (exploreOnce_names fuel id).bind fun _ => leads_get.bind fun resolver => ?_
        split
        · exact (reportCycle_names id _).bind fun _ => leads_pure _
        · exact leads_pure _
  · exact fun operations resolver named => named

theorem unscathed_fresh (table : TypeTable) : Unscathed { table := table } where
  explored := ⟨rfl, rfl, by simp, by simp, by simp⟩
  named := by simp [Named]

/-- A failure that has visited and reported nothing new leaves the resolver unscathed. -/
theorem Unscathed.stands (unscathed : resolver.Unscathed) (extends_ : resolver.Extends later)
    (visited : later.visited = resolver.visited) (cycles : later.cycles = resolver.cycles)
    (reported : later.reported = resolver.reported) : later.Unscathed where
  explored := unscathed.explored.stands
    { extends_.toLearns with
      links := (extends_.rest unscathed.explored.links).trans unscathed.explored.links.symm
      trail := (extends_.trail unscathed.explored.trail).trans unscathed.explored.trail.symm
      visited := visited
      cycles := cycles }
  named := unscathed.named.grown extends_.table reported

end Naming

section Sessions

/-- A resolver after one more query, which was answered, or which failed for want of a type and left the resolver
unscathed. -/
inductive Weathers (hooks : Registry) (resolver later : Resolver) : Prop where
  | answered {fuel : Nat} {query : Query} (run : query.ask hooks fuel resolver = .ok () later)
  | failed {fuel : Nat} {query : Query} {missing : TypeId}
      (run : query.ask hooks fuel resolver = .error (.unknownId missing) later) (unscathed : later.Unscathed)

/-- The resolvers over a table that have weathered any queries. -/
inductive Weathered (hooks : Registry) (table : TypeTable) : Resolver → Prop where
  | start : Weathered hooks table { table := table }
  | asked {resolver later : Resolver} (earlier : Weathered hooks table resolver)
      (weathers : Weathers hooks resolver later) : Weathered hooks table later

/-- Two resolvers that share a type table, after further queries to either of them, which they have weathered. -/
inductive SharedTries (hooks : Registry) (resolver other : Resolver) : Resolver → Resolver → Prop where
  | start : SharedTries hooks resolver other resolver other
  | first {first second later : Resolver} (earlier : SharedTries hooks resolver other first second)
      (weathers : Weathers hooks first later) :
      SharedTries hooks resolver other later { second with table := later.table }
  | second {first second later : Resolver} (earlier : SharedTries hooks resolver other first second)
      (weathers : Weathers hooks second later) :
      SharedTries hooks resolver other { first with table := later.table } later

theorem Weathers.extends_ (weathers : Weathers hooks resolver later) : resolver.Extends later := by
  cases weathers with
  | @answered fuel query run => exact (query.ask_leads (extends_leadsQueries hooks) fuel).of_ok run
  | @failed fuel query missing run unscathed => exact (query.ask_leads (extends_leadsQueries hooks) fuel).of_error run

theorem Weathers.sound (weathers : Weathers hooks resolver later) (sound : resolver.Sound hooks) :
    later.Sound hooks := by
  cases weathers with
  | answered run => exact sound.asked run
  | @failed fuel query missing run unscathed =>
      exact ⟨(query.ask_leads (ready_leadsQueries hooks) fuel).of_error run sound.ready, unscathed.explored⟩

theorem Weathers.unscathed (weathers : Weathers hooks resolver later) (unscathed : resolver.Unscathed) :
    later.Unscathed := by
  cases weathers with
  | @answered fuel query run =>
      exact
        { explored := (query.ask_leads (explored_leadsQueries hooks) fuel).of_ok run unscathed.explored
          named := (query.ask_leads (named_leadsQueries hooks) fuel).of_ok run unscathed.named }
  | failed run unscathed => exact unscathed

/-- Queries that are answered leave the resolver unscathed too. -/
theorem Weathered.unscathed (weathered : Weathered hooks table resolver) : resolver.Unscathed := by
  induction weathered with
  | start => exact unscathed_fresh table
  | asked earlier weathers unscathed => exact weathers.unscathed unscathed

theorem Weathered.sound (weathered : Weathered hooks table resolver) : resolver.Sound hooks := by
  induction weathered with
  | start => exact ⟨Reached.start.ready, (unscathed_fresh table).explored⟩
  | asked earlier weathers sound => exact weathers.sound sound

theorem SharedTries.shares {resolver other first second : Resolver}
    (tries : SharedTries hooks resolver other first second) (shares : Shares hooks resolver other) :
    Shares hooks first second := by
  induction tries with
  | start => exact shares
  | first earlier weathers ih =>
      have grown := weathers.extends_.table
      exact ⟨weathers.sound ih.firstSound, ih.secondSound.shared (ih.sameTable ▸ grown), rfl⟩
  | second earlier weathers ih =>
      have grown := weathers.extends_.table
      exact ⟨ih.firstSound.shared (ih.sameTable ▸ grown), weathers.sound ih.secondSound, rfl⟩

end Sessions

section Answers

/-- Asked the same, two resolvers give the same answer, the second one working on the table as the first one has left
it, unless they come to judge a generic object both ways. -/
def AgreesOn {Result : Type} (first second : Resolver) (action : Nat → ResolveM Result) : Prop :=
  ∀ fuel fuel' answer answer' first' second', action fuel first = .ok answer first' →
    action fuel' { second with table := first'.table } = .ok answer' second' →
      SameVerdicts first' second' → answer = answer'

/-- Whatever they are asked next, two resolvers give the same answer. -/
structure AgreesOnAll (hooks : Registry) (first second : Resolver) : Prop where
  unresolvable : ∀ id, AgreesOn first second fun fuel => isUnresolvable fuel id
  operation : ∀ id kind, AgreesOn first second fun fuel => resolve hooks fuel id kind
  table : ∀ ids, AgreesOn first second fun fuel => operationTable hooks fuel ids
  plan : ∀ id kind place, AgreesOn first second fun fuel => expand hooks fuel id kind place
  copies : ∀ id place, AgreesOn first second fun fuel => copyPlan hooks fuel id place

variable {first second : Resolver}

/-- The resolvers that two answers leave agree, when the second one is asked after the first one. -/
theorem Shares.after {first' second' : Resolver} (shares : Shares hooks first second)
    (weathers : Weathers hooks first first') (weathers' : Weathers hooks { second with table := first'.table } second')
    (same : SameVerdicts first' second') :
    Shares hooks { first' with table := second'.table } second' ∧
      Agrees { first' with table := second'.table } second' := by
  have tries : SharedTries hooks first second { first' with table := second'.table } second' :=
    (SharedTries.start.first weathers).second weathers'
  have shares' := tries.shares shares
  exact ⟨shares', agrees_of_sameVerdicts shares' same⟩

/-- Alike resolvers give the same answers. -/
theorem Shares.agreesOn {Result : Type} {kind : OpKind} {action : Nat → ResolveM Result}
    (shares : Shares hooks first second) (query : Query) (asks : ∀ fuel, query.ask hooks fuel = do let _ ← action fuel)
    (alike : ∀ fuel fuel', AnswersAlike kind (action fuel) (action fuel')) : AgreesOn first second action := by
  intro fuel fuel' answer answer' first' second' run run' same
  have weathers : Weathers hooks first first' := .answered ((asks fuel).symm ▸ answered_of_ok run)
  have weathers' : Weathers hooks { second with table := first'.table } second' :=
    .answered ((asks fuel').symm ▸ answered_of_ok run')
  obtain ⟨shares', agrees⟩ := shares.after weathers weathers' same
  have grown : first'.table.Extends second'.table := weathers'.extends_.table
  have gave : Gave (action fuel) answer { first' with table := second'.table } :=
    ⟨first, first', shares.firstSound.ready.idle, run, (consults_table grown).toExtends⟩
  have idle := (shares.secondSound.shared (shares.sameTable ▸ weathers.extends_.table)).ready.idle
  have gave' : Gave (action fuel') answer' second' := ⟨_, second', idle, run', refl_of Extends second'⟩
  exact (alike fuel fuel').same ⟨agrees, fun id _ _ kept kept' => operations_agree shares' agrees kept kept'⟩ gave gave'

/-- Both read an operation table off the operations that they keep. -/
theorem Shares.agreesOn_table (shares : Shares hooks first second) (ids : List TypeId) :
    AgreesOn first second fun fuel => operationTable hooks fuel ids := by
  intro fuel fuel' rows rows' first' second' run run' same
  have asked : (Query.operationTable ids).ask hooks fuel first = .ok () first' := answered_of_ok run
  have asked' : (Query.operationTable ids).ask hooks fuel' { second with table := first'.table } = .ok () second' :=
    answered_of_ok run'
  obtain ⟨shares', agrees⟩ := shares.after (.answered asked) (.answered asked') same
  obtain ⟨rfl, keeps⟩ := operationTable_kept run
  obtain ⟨rfl, keeps'⟩ := operationTable_kept run'
  refine List.map_congr_left fun id member => ?_
  have sameKept (kind : OpKind) : first'.operations.lookup (id, kind) = second'.operations.lookup (id, kind) := by
    obtain ⟨outcome, kept⟩ := Option.isSome_iff_exists.mp (keeps id member kind)
    obtain ⟨other, kept'⟩ := Option.isSome_iff_exists.mp (keeps' id member kind)
    rw [kept, kept', operations_agree shares' agrees kept kept']
  simp only [keptRow, sameKept]

theorem Shares.agreesOnAll (shares : Shares hooks first second) : AgreesOnAll hooks first second where
  unresolvable id := by
    have alike (fuel fuel' : Nat) : AnswersAlike .assign (isUnresolvable fuel id) (isUnresolvable fuel' id) :=
      isUnresolvable_alike fuel fuel' id
    exact shares.agreesOn (.isUnresolvable id) (fun _ => rfl) alike
  operation id kind :=
    shares.agreesOn (.resolve id kind) (fun _ => rfl) fun fuel fuel' => resolve_alike hooks hooks fuel fuel' id
  table ids := shares.agreesOn_table ids
  plan id kind place :=
    shares.agreesOn (.expand id kind place) (fun _ => rfl) fun fuel fuel' =>
      expandWithin_alike hooks hooks fuel fuel' [] id place
  copies id place :=
    shares.agreesOn (.copyPlan id place) (fun _ => rfl) fun fuel fuel' =>
      copyWithin_alike hooks hooks fuel fuel' [] id place

end Answers

/-- A query that fails for want of a type and leaves the resolver unscathed leaves no trace.  Asked again, it fails for
want of the same type and changes nothing; and whatever else the resolver is asked from then on, it answers as one
that was never asked the query. -/
theorem Weathered.failure_leaves_no_trace (weathered : Weathered hooks table resolver) {query : Query} {fuel : Nat}
    {missing : TypeId} {final : Resolver} (single : query.isSingle = true)
    (run : query.ask hooks fuel resolver = .error (.unknownId missing) final) (unscathed : final.Unscathed) :
    (∀ more, fuel ≤ more → query.ask hooks more final = .error (.unknownId missing) final) ∧
      ∀ first second, SharedTries hooks { resolver with table := final.table } final first second →
        AgreesOnAll hooks first second := by
  have sound := weathered.sound
  have weathers : Weathers hooks resolver final := .failed run unscathed
  have shares : Shares hooks { resolver with table := final.table } final :=
    ⟨sound.shared weathers.extends_.table, weathers.sound sound, rfl⟩
  refine ⟨fun more enough => ?_, fun first second tries => (tries.shares shares).agreesOnAll⟩
  exact query.ask_fails_again single enough sound.ready.idle unscathed run

/-- Bags with a sequence of items of a type that does not exist. -/
def bagTable : TypeTable :=
  TypeTable.after {} [.object "Bag" [] {}, .wrap .seq 99, .define 1 { fields := [⟨"items", 2⟩] }]

/-- A resolver that was asked whether bags are unresolvable. -/
def askedBag : Resolver := ((Query.isUnresolvable 1).ask noHooks 9).finish { table := bagTable }

/-- The plan for a bag fails on the type of its items, as often as it is asked for. -/
theorem failure_leaves_no_trace_bag :
    ∃ final, Weathered noHooks bagTable askedBag ∧ final.Unscathed ∧
      (Query.expand 1 .destroy "bag").ask noHooks 9 askedBag = .error (.unknownId 99) final ∧
      (∀ more, 9 ≤ more → (Query.expand 1 .destroy "bag").ask noHooks more final = .error (.unknownId 99) final) ∧
      AgreesOnAll noHooks { askedBag with table := final.table } final := by
  have answers : ((Query.isUnresolvable 1).ask noHooks 9).result? { table := bagTable } = some () := by decide +kernel
  have weathered : Weathered noHooks bagTable askedBag := .asked .start (.answered (run_of_result? answers))
  have fails : ((Query.expand 1 .destroy "bag").ask noHooks 9).fault? askedBag = some (.unknownId 99) := by
    decide +kernel
  have run := run_of_fault? fails
  have extends_ := ((Query.expand 1 .destroy "bag").ask_leads (extends_leadsQueries noHooks) 9).of_error run
  have unscathed := weathered.unscathed.stands extends_ (by decide +kernel) (by decide +kernel) (by decide +kernel)
  obtain ⟨again, agrees⟩ := weathered.failure_leaves_no_trace rfl run unscathed
  exact ⟨_, weathered, unscathed, run, again, agrees _ _ .start⟩

/-- Two generic objects, each of which holds sequences of the other one.  The first one also holds a sequence of a type
that does not exist. -/
def mutualTable : TypeTable :=
  TypeTable.after {} [.object "Left" ["T"] {}, .object "Right" ["U"] {}, .instantiate 3 [2], .instantiate 1 [4],
    .wrap .seq 6, .wrap .seq 99, .wrap .seq 5, .define 1 { fields := [⟨"late", 8⟩, ⟨"right", 9⟩] },
    .define 3 { fields := [⟨"left", 7⟩] }]

/-- A failure may be followed by an answer where there would have been a failure too: the verdict on the second object,
which was given while the first one was being judged, is kept. -/
theorem answers_after_failure_mutual :
    ∃ final, (Query.isUnresolvable 1).ask noHooks 20 { table := mutualTable } = .error (.unknownId 99) final ∧
      final.Unscathed ∧ (isUnresolvable 20 3).result? final = some false ∧
      (isUnresolvable 20 3).fault? { table := final.table } = some (.unknownId 99) := by
  have fails : ((Query.isUnresolvable 1).ask noHooks 20).fault? { table := mutualTable } = some (.unknownId 99) := by
    decide +kernel
  have run := run_of_fault? fails
  have extends_ := ((Query.isUnresolvable 1).ask_leads (extends_leadsQueries noHooks) 20).of_error run
  have unscathed := (unscathed_fresh mutualTable).stands extends_ (by decide +kernel) (by decide +kernel)
    (by decide +kernel)
  exact ⟨_, run, unscathed, by decide +kernel, by decide +kernel⟩

section Traces

/-- The resolvers over a table after any queries, each of which was answered or failed for want of a type. -/
inductive Tried (hooks : Registry) (table : TypeTable) : Resolver → Prop where
  | start : Tried hooks table { table := table }
  | answered {resolver later : Resolver} (earlier : Tried hooks table resolver) {fuel : Nat} {query : Query}
      (run : query.ask hooks fuel resolver = .ok () later) : Tried hooks table later
  | failed {resolver later : Resolver} (earlier : Tried hooks table resolver) {fuel : Nat} {query : Query}
      {missing : TypeId} (run : query.ask hooks fuel resolver = .error (.unknownId missing) later) :
      Tried hooks table later

/-- With some budget, a resolver gives an answer or fails for want of a type. -/
def Gives {Result : Type} (resolver : Resolver) (action : Nat → ResolveM Result) : Except TypeId Result → Prop
  | .ok result => ∃ fuel final, action fuel resolver = .ok result final
  | .error missing => ∃ fuel final, action fuel resolver = .error (.unknownId missing) final

/-- Two resolvers give the same answers and the same failures. -/
structure SameAnswers (hooks : Registry) (first second : Resolver) : Prop where
  unresolvable : ∀ id answer,
    first.Gives (fun fuel => isUnresolvable fuel id) answer ↔ second.Gives (fun fuel => isUnresolvable fuel id) answer
  operation : ∀ id kind answer,
    first.Gives (fun fuel => resolve hooks fuel id kind) answer ↔
      second.Gives (fun fuel => resolve hooks fuel id kind) answer
  plan : ∀ id kind place answer,
    first.Gives (fun fuel => expand hooks fuel id kind place) answer ↔
      second.Gives (fun fuel => expand hooks fuel id kind place) answer

/-- Whatever was asked before, a query that fails for want of a type fails again, and leaves the resolver
to answer as one that was never asked it. -/
def FailuresLeaveNoTrace : Prop :=
  ∀ hooks table resolver, hooks.frozen = true → Tried hooks table resolver →
    ∀ (query : Query) fuel missing final, query.isSingle = true →
      query.ask hooks fuel resolver = .error (.unknownId missing) final →
        final.Gives (fun fuel => query.ask hooks fuel) (.error missing) ∧
          SameAnswers hooks { resolver with table := final.table } final

/-- Objects with a field of a type that does not exist. -/
def lateTable : TypeTable :=
  TypeTable.after {} [.object "A" [] {}, .define 1 { fields := [⟨"late", 99⟩] }]

/-- The object itself. -/
def lateObject : ObjectType where
  name := "A"
  params := []
  body := { fields := [⟨"late", 99⟩] }
  span := {}

/-- Asked whether the object is unresolvable, the resolver fails.  Asked again, it takes the
object for one that it has explored. -/
theorem not_failuresLeaveNoTrace : ¬ FailuresLeaveNoTrace := by
  intro noTrace
  let ask : ResolveM Unit := (Query.isUnresolvable 1).ask noHooks 9
  let final := ask.finish { table := lateTable }
  have fails : ask.fault? { table := lateTable } = some (.unknownId 99) := by decide +kernel
  obtain ⟨⟨fuel, last, again⟩, -⟩ :=
    noTrace noHooks lateTable _ rfl .start _ 9 99 final rfl (run_of_fault? fails)
  have isObject : final.table.get? 1 = some (.object lateObject) := by decide +kernel
  have clear : final.Clear 1 :=
    { judged := judged_object isObject rfl
      visited := by decide +kernel
      onNoCycle := by decide +kernel }
  cases fuel with
  | zero => cases again
  | succ fuel =>
      have answers : (Query.isUnresolvable 1).ask noHooks (fuel + 1) final = .ok () final :=
        answered_of_ok (clear.run fuel)
      cases answers.symm.trans again

end Traces
end Resolver
end LifecycleHooks

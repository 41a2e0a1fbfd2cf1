import LifecycleHooks.Proofs.Lifting.Correctness
import LifecycleHooks.Proofs.Lifting.Exploration

/-!
# When two resolvers agree

Two resolvers that share a type table may be asked different queries.  All their answers
are the same exactly when their verdicts on generic objects make the same types endless.
It suffices that no generic object is judged both ways, but the order of the queries can
bring that about.
-/

namespace LifecycleHooks
namespace Resolver

open Attempt ResolveM

/-- Two resolvers that share a type table, after queries to either of them that were all
answered. -/
inductive SharedRun (hooks : Registry) (table : TypeTable) : Resolver → Resolver → Prop where
  | start : SharedRun hooks table { table := table } { table := table }
  | first {first second later : Resolver} (earlier : SharedRun hooks table first second)
      {fuel : Nat} {query : Query} (answered : query.ask hooks fuel first = .ok () later) :
      SharedRun hooks table later { second with table := later.table }
  | second {first second later : Resolver} (earlier : SharedRun hooks table first second)
      {fuel : Nat} {query : Query} (answered : query.ask hooks fuel second = .ok () later) :
      SharedRun hooks table { first with table := later.table } later

/-- No generic object was judged both ways. -/
def SameVerdicts (first second : Resolver) : Prop :=
  ∀ head grows other, first.growth.lookup head = some grows →
    second.growth.lookup head = some other → grows = other

/-- What holds of a resolver whose queries were all answered. -/
structure Sound (hooks : Registry) (resolver : Resolver) : Prop where
  ready : resolver.Ready hooks
  explored : resolver.Explored

theorem Sound.asked {hooks : Registry} {resolver later : Resolver} {fuel : Nat} {query : Query}
    (sound : resolver.Sound hooks) (answered : query.ask hooks fuel resolver = .ok () later) :
    later.Sound hooks where
  ready := (query.ask_leads (ready_leadsQueries hooks) fuel).of_ok answered sound.ready
  explored := (query.ask_leads (explored_leadsQueries hooks) fuel).of_ok answered sound.explored

theorem Sound.shared {hooks : Registry} {resolver : Resolver} {larger : TypeTable}
    (sound : resolver.Sound hooks) (extends_ : resolver.table.Extends larger) :
    Sound hooks { resolver with table := larger } where
  ready := sound.ready.consults (consults_table extends_)
  explored := sound.explored.stands
    { (consults_table extends_).toLearns with
      links := rfl, trail := rfl, visited := rfl, cycles := rfl }

theorem Query.ask_table_extends {hooks : Registry} {resolver later : Resolver} {fuel : Nat}
    {query : Query} (answered : query.ask hooks fuel resolver = .ok () later) :
    resolver.table.Extends later.table :=
  ((query.ask_leads (extends_leadsQueries hooks) fuel).of_ok answered).table

/-- What holds of two resolvers that share a type table. -/
structure Shares (hooks : Registry) (first second : Resolver) : Prop where
  firstSound : first.Sound hooks
  secondSound : second.Sound hooks
  sameTable : first.table = second.table

theorem SameVerdicts.symm {first second : Resolver} (same : SameVerdicts first second) :
    SameVerdicts second first :=
  fun head grows other known otherKnown => (same head other grows otherKnown known).symm

theorem SharedRun.shares {hooks : Registry} {table : TypeTable} {first second : Resolver}
    (run : SharedRun hooks table first second) : Shares hooks first second := by
  induction run with
  | start =>
      have fresh : Sound hooks { table := table } :=
        { ready := Reached.start.ready
          explored := ⟨rfl, rfl, by simp, by simp, by simp⟩ }
      exact ⟨fresh, fresh, rfl⟩
  | first earlier answered ih =>
      have extends_ := Query.ask_table_extends answered
      exact ⟨ih.firstSound.asked answered, ih.secondSound.shared (ih.sameTable ▸ extends_), rfl⟩
  | second earlier answered ih =>
      have extends_ := Query.ask_table_extends answered
      exact ⟨ih.firstSound.shared (ih.sameTable ▸ extends_), ih.secondSound.asked answered, rfl⟩

section Agreeing

variable {hooks : Registry} {first second : Resolver}

theorem Judged.agrees {id : TypeId} {grows other : Bool} (same : SameVerdicts first second)
    (sameTable : first.table = second.table) (judged : first.Judged id grows)
    (otherJudged : second.Judged id other) : grows = other := by
  cases judged with
  | headless none =>
      cases otherJudged with
      | headless _ => rfl
      | plain _ _ _ => rfl
      | generic some _ _ _ => cases (sameTable ▸ none).symm.trans some
  | plain some isHead notGeneric =>
      cases otherJudged with
      | headless _ => rfl
      | plain _ _ _ => rfl
      | generic otherSome otherHead isGeneric _ =>
          cases (sameTable ▸ some).symm.trans otherSome
          cases (sameTable ▸ isHead).symm.trans otherHead
          cases notGeneric.symm.trans isGeneric
  | generic some isHead isGeneric known =>
      cases otherJudged with
      | headless none => cases (sameTable ▸ some).symm.trans none
      | plain otherSome otherHead notGeneric =>
          cases (sameTable ▸ some).symm.trans otherSome
          cases (sameTable ▸ isHead).symm.trans otherHead
          cases notGeneric.symm.trans isGeneric
      | generic otherSome _ _ otherKnown =>
          cases (sameTable ▸ some).symm.trans otherSome
          exact same _ _ _ known otherKnown

theorem Parts.agrees {id : TypeId} {parts others : List TypeId} (same : SameVerdicts first second)
    (sameTable : first.table = second.table) (known : first.Parts id parts)
    (otherKnown : second.Parts id others) : parts = others := by
  obtain ⟨grows, judged, known⟩ := known.cases
  obtain ⟨otherGrows, otherJudged, otherKnown⟩ := otherKnown.cases
  obtain rfl := judged.agrees same sameTable otherJudged
  rcases known with ⟨rfl, rfl⟩ | ⟨rfl, type, isType, known⟩
  · rcases otherKnown with ⟨_, rfl⟩ | ⟨impossible, _⟩
    · rfl
    · cases impossible
  · rcases otherKnown with ⟨impossible, _⟩ | ⟨_, otherType, isOther, otherKnown⟩
    · cases impossible
    · cases (sameTable ▸ isType).symm.trans isOther
      rcases known with ⟨notByValue, rfl⟩ | ⟨byValue, slots, rfl, worked⟩
      · rcases otherKnown with ⟨_, rfl⟩ | ⟨byValue, _⟩
        · rfl
        · cases notByValue.symm.trans byValue
      · rcases otherKnown with ⟨notByValue, _⟩ | ⟨_, others, rfl, otherWorked⟩
        · cases notByValue.symm.trans byValue
        · rw [sameTable] at worked
          obtain ⟨rfl, _⟩ := EStateM.Result.ok.inj (worked.symm.trans otherWorked)
          rfl

/-- With the same verdicts, a type that one resolver holds to be unresolvable is not clear
to the other one. -/
theorem Held.not_clear {id : TypeId} (explored : first.Explored) (otherExplored : second.Explored)
    (sameTable : first.table = second.table) (same : SameVerdicts first second) (held : first.Held id) :
    ¬ second.Clear id := by
  intro clear
  cases held with
  | grows judged isHead reported => cases judged.agrees same sameTable clear.judged
  | cyclic judged visited onCycle reported =>
      have cyclic := (explored.cycles id visited).mp (by simp [onCycle])
      -- Both have visited the whole cycle, and they see the same parts on it.
      have step : ∀ source other, source ∈ first.visited ∧ source ∈ second.visited →
          first.ByValue source other →
          second.ByValue source other ∧ other ∈ first.visited ∧ other ∈ second.visited := by
        rintro source other ⟨member, otherMember⟩ ⟨parts, known, inParts⟩
        obtain ⟨parts', known', visited⟩ := explored.parts source member
        obtain ⟨others, otherKnown, otherVisited⟩ := otherExplored.parts source otherMember
        obtain rfl := known.unique known'
        obtain rfl := known.agrees same sameTable otherKnown
        exact ⟨⟨parts, otherKnown, inParts⟩, visited inParts, otherVisited inParts⟩
      have otherCyclic := (transGen_of_closed step ⟨visited, clear.visited⟩ cyclic).1
      have found := (otherExplored.cycles id clear.visited).mpr otherCyclic
      simp [clear.onNoCycle] at found

/-- Two resolvers over one table, neither of which holds a type to be unresolvable that
is clear to the other one. -/
structure Agrees (first second : Resolver) : Prop where
  sameTable : first.table = second.table
  held : ∀ id, first.Held id → ¬ second.Clear id
  clear : ∀ id, first.Clear id → ¬ second.Held id

theorem Agrees.symm (agrees : Agrees first second) : Agrees second first :=
  ⟨agrees.sameTable.symm, fun id held clear => agrees.clear id clear held,
    fun id clear held => agrees.held id held clear⟩

theorem agrees_of_explored (explored : first.Explored) (otherExplored : second.Explored)
    (sameTable : first.table = second.table) (same : SameVerdicts first second) : Agrees first second where
  sameTable := sameTable
  held _ held := held.not_clear explored otherExplored sameTable same
  clear _ clear held := held.not_clear otherExplored explored sameTable.symm same.symm clear

theorem agrees_of_sameVerdicts (shares : Shares hooks first second)
    (same : SameVerdicts first second) : Agrees first second :=
  agrees_of_explored shares.firstSound.explored shares.secondSound.explored shares.sameTable same

theorem relevantSlots_agree {kind : OpKind} {id : TypeId} {slots others : List Slot}
    (sameTable : first.table = second.table)
    (parts : relevantSlots id kind first = .ok slots first)
    (otherParts : relevantSlots id kind second = .ok others second) : slots = others := by
  have extends_ : first.table.Extends second.table := sameTable ▸ TypeTable.Extends.refl first.table
  exact (EStateM.Result.ok.inj ((relevantSlots_kept parts extends_).symm.trans otherParts)).1

/-- A path to a hook for one resolver does not start in a region without hooks for the
other one. -/
theorem HookPath.not_unhooked {kind : OpKind} {id : TypeId} (agrees : Agrees first second)
    (path : HookPath hooks kind first first.Clear id) :
    ¬ second.Unhooked hooks kind id := by
  rintro ⟨region, member, barren⟩
  induction path with
  | overridden clear hook =>
      cases barren _ member with
      | held held => exact agrees.clear _ clear held
      | clear _ unbound _ _ =>
          have governs := TypeTable.governingHook?_eq_ok_some.mpr (agrees.sameTable ▸ hook)
          cases governs.symm.trans unbound
  | constituent clear parts isSlot path ih =>
      cases barren _ member with
      | held held => exact agrees.clear _ clear held
      | clear _ _ otherParts inside =>
          obtain rfl := relevantSlots_agree agrees.sameTable parts otherParts
          exact ih (inside _ isSlot)

/-- Two resolvers explain an operation in the same way. -/
theorem Explained.agrees {kind : OpKind} {id : TypeId} {outcome other : Outcome}
    (agrees : Agrees first second) (explained : Explained hooks kind first id outcome)
    (otherExplained : Explained hooks kind second id other) : outcome = other := by
  have sameBuiltIn : outcome.isBuiltIn = other.isBuiltIn := by
    cases builtIn : outcome.isBuiltIn with
    | true =>
        cases otherBuiltIn : other.isBuiltIn with
        | true => rfl
        | false =>
            have path := otherExplained.hookPath otherBuiltIn
            exact absurd (explained.unhooked builtIn) (path.not_unhooked agrees.symm)
    | false =>
        cases otherBuiltIn : other.isBuiltIn with
        | true =>
            have path := explained.hookPath builtIn
            exact absurd (otherExplained.unhooked otherBuiltIn) (path.not_unhooked agrees)
        | false => rfl
  have governs {table : TypeTable} {entry : HookEntry}
      (hook : table.Overridden hooks kind id entry) :
      table.governingHook? hooks id kind = .ok (some entry) :=
    TypeTable.governingHook?_eq_ok_some.mpr hook
  cases explained with
  | builtIn unhooked =>
      cases otherExplained with
      | builtIn _ => rfl
      | overridden _ _ => cases sameBuiltIn
      | lifted _ _ _ _ _ _ => cases sameBuiltIn
  | overridden clear hook =>
      cases otherExplained with
      | builtIn _ => cases sameBuiltIn
      | overridden _ otherHook =>
          cases (governs (agrees.sameTable ▸ hook)).symm.trans (governs otherHook)
          rfl
      | lifted _ unbound _ _ _ _ =>
          cases (governs (agrees.sameTable ▸ hook)).symm.trans unbound
  | @lifted slots takesPart clear unbound parts path chosen leftOut =>
      cases otherExplained with
      | builtIn _ => cases sameBuiltIn
      | overridden _ hook => cases (governs (agrees.sameTable ▸ hook)).symm.trans unbound
      | @lifted others otherTakesPart _ _ otherParts _ otherChosen otherLeftOut =>
          obtain rfl := relevantSlots_agree agrees.sameTable parts otherParts
          have sameSteps : slots.filter takesPart = slots.filter otherTakesPart := by
            refine List.filter_congr fun slot member => ?_
            cases takes : takesPart slot with
            | true =>
                cases otherTakes : otherTakesPart slot with
                | true => rfl
                | false =>
                    exact absurd (otherLeftOut slot member otherTakes)
                      ((chosen slot member takes).not_unhooked agrees)
            | false =>
                cases otherTakes : otherTakesPart slot with
                | true =>
                    exact absurd (leftOut slot member takes)
                      ((otherChosen slot member otherTakes).not_unhooked agrees.symm)
                | false => rfl
          rw [sameSteps]

end Agreeing

section Answers

variable {hooks : Registry}

/-- The two resolvers after a query to the first and then one to the second, which works
on the table as the first has left it. -/
theorem SharedRun.both {table : TypeTable} {first second first' second' : Resolver}
    {fuel fuel' : Nat} {query query' : Query} (shared : SharedRun hooks table first second)
    (answered : query.ask hooks fuel first = .ok () first')
    (answered' : query'.ask hooks fuel' { second with table := first'.table } = .ok () second') :
    SharedRun hooks table { first' with table := second'.table } second' ∧
      first'.Consults { first' with table := second'.table } := by
  have extends_ : ({ second with table := first'.table } : Resolver).table.Extends second'.table :=
    Query.ask_table_extends answered'
  exact ⟨(shared.first answered).second answered', consults_table extends_⟩

theorem answered_of_ok {Result : Type} {action : ResolveM Result} {resolver final : Resolver}
    {result : Result} (run : action resolver = .ok result final) :
    (do let _ ← action : ResolveM Unit) resolver = .ok () final := by
  rw [bind_run_of_ok run]
  rfl

/-- Operations that both resolvers keep for a type are the same. -/
theorem operations_agree {first second : Resolver} (shares : Shares hooks first second)
    (agrees : Agrees first second) {id : TypeId} {kind : OpKind} {outcome other : Outcome}
    (kept : first.operations.lookup (id, kind) = some outcome)
    (otherKept : second.operations.lookup (id, kind) = some other) : outcome = other :=
  (shares.firstSound.ready.explained id kind outcome kept).agrees agrees
    (shares.secondSound.ready.explained id kind other otherKept)

/-- The row of a type in the operation table, as far as it is kept. -/
def keptRow (resolver : Resolver) (id : TypeId) : TypeId × List Operation :=
  (id, OpKind.all.map fun kind =>
    ⟨id, kind, (resolver.operations.lookup (id, kind)).getD .builtIn⟩)

/-- All operations on a type are kept. -/
def KeepsRow (resolver : Resolver) (id : TypeId) : Prop :=
  ∀ kind, (resolver.operations.lookup (id, kind)).isSome = true

theorem KeepsRow.extends_ {resolver later : Resolver} {id : TypeId} (keeps : resolver.KeepsRow id)
    (extends_ : resolver.Extends later) :
    later.KeepsRow id ∧ later.keptRow id = resolver.keptRow id := by
  have same (kind : OpKind) : later.operations.lookup (id, kind) =
      resolver.operations.lookup (id, kind) := by
    obtain ⟨outcome, known⟩ := Option.isSome_iff_exists.mp (keeps kind)
    rw [known]
    exact extends_.operations _ _ known
  refine ⟨fun kind => same kind ▸ keeps kind, ?_⟩
  simp only [keptRow, same]

/-- An operation table consists of the operations that are kept. -/
theorem operationTable_kept {fuel : Nat} {ids : List TypeId} {resolver final : Resolver}
    {rows : List (TypeId × List Operation)}
    (run : operationTable hooks fuel ids resolver = .ok rows final) :
    rows = ids.map final.keptRow ∧ ∀ id ∈ ids, final.KeepsRow id := by
  have resolves (id : TypeId) (kind : OpKind) : (resolve hooks fuel id kind).Preserves Extends :=
    resolve_extends hooks fuel id kind
  have makesRow (id : TypeId) :
      (do return (id, ← OpKind.all.mapM (resolve hooks fuel id)) :
        ResolveM (TypeId × List Operation)).Preserves Extends :=
    (leads_mapM fun kind _ => resolves id kind).bind fun _ => leads_pure _
  refine mapM_reads KeepsRow keptRow makesRow (fun id before after row run => ?_)
    (fun id before after keeps extends_ => keeps.extends_ extends_) run
  · obtain ⟨operations, middle, resolving, rest⟩ := bind_eq_ok.mp run
    obtain ⟨rfl, rfl⟩ := EStateM.Result.ok.inj rest
    obtain ⟨rfl, known⟩ := mapM_reads
      (fun later kind => (later.operations.lookup (id, kind)).isSome = true)
      (fun later kind => (⟨id, kind, (later.operations.lookup (id, kind)).getD .builtIn⟩ : Operation))
      (resolves id)
      (fun kind before after operation run => by
        obtain ⟨kept, same⟩ := resolve_kept run
        rw [kept]
        exact ⟨rfl, same⟩)
      (fun kind before after known extends_ => by
        obtain ⟨outcome, found⟩ := Option.isSome_iff_exists.mp known
        rw [found, extends_.operations _ _ found]
        exact ⟨rfl, rfl⟩)
      resolving
    exact ⟨fun kind => known kind (by cases kind <;> simp [OpKind.all]), rfl⟩

/-- A type without finite structure, by the verdicts of a resolver: its generic object
was judged to grow, or it contains itself by value. -/
def Endless (resolver : Resolver) (id : TypeId) : Prop :=
  resolver.Judged id true ∨ Relation.TransGen resolver.ByValue id id

/-- It was settled whether a type has a finite structure. -/
def Settled (resolver : Resolver) (id : TypeId) : Prop := resolver.Held id ∨ resolver.Clear id

theorem Sound.endless_of_held {resolver : Resolver} {id : TypeId} (sound : resolver.Sound hooks)
    (held : resolver.Held id) : resolver.Endless id := by
  cases held with
  | grows judged isHead reported => exact .inl judged
  | cyclic judged visited onCycle reported =>
      exact .inr ((sound.explored.cycles id visited).mp (by simp [onCycle]))

theorem Sound.not_endless_of_clear {resolver : Resolver} {id : TypeId}
    (sound : resolver.Sound hooks) (clear : resolver.Clear id) : ¬ resolver.Endless id := by
  rintro (judged | cyclic)
  · have itself : SameVerdicts resolver resolver := fun _ _ _ known other =>
      Option.some.inj (known.symm.trans other)
    cases judged.agrees itself rfl clear.judged
  · have found := (sound.explored.cycles id clear.visited).mpr cyclic
    simp [clear.onNoCycle] at found

/-- The verdicts of two resolvers make the same types endless, among those that both have
settled. -/
def SameTypes (first second : Resolver) : Prop :=
  ∀ id, first.Settled id → second.Settled id → (first.Endless id ↔ second.Endless id)

theorem sameTypes_iff_agrees {first second : Resolver} (shares : Shares hooks first second) :
    SameTypes first second ↔ Agrees first second := by
  constructor
  · intro same
    refine ⟨shares.sameTable, fun id held clear => ?_, fun id clear held => ?_⟩
    · have endless := shares.firstSound.endless_of_held held
      exact shares.secondSound.not_endless_of_clear clear
        ((same id (.inl held) (.inr clear)).mp endless)
    · have endless := shares.secondSound.endless_of_held held
      exact shares.firstSound.not_endless_of_clear clear
        ((same id (.inr clear) (.inl held)).mpr endless)
  · intro agrees id settled settled'
    rcases settled with held | clear
    · rcases settled' with held' | clear'
      · exact iff_of_true (shares.firstSound.endless_of_held held)
          (shares.secondSound.endless_of_held held')
      · exact absurd clear' (agrees.held id held)
    · rcases settled' with held' | clear'
      · exact absurd held' (agrees.clear id clear)
      · exact iff_of_false (shares.firstSound.not_endless_of_clear clear)
          (shares.secondSound.not_endless_of_clear clear')

/-- Whatever two resolvers are asked next, they give the same answers, the second working
on the table as the first has left it. -/
structure AnswersAgree (hooks : Registry) (first second : Resolver) : Prop where
  unresolvable : ∀ fuel fuel' id answer answer' first' second',
    isUnresolvable fuel id first = .ok answer first' →
    isUnresolvable fuel' id { second with table := first'.table } = .ok answer' second' →
    answer = answer'
  operation : ∀ fuel fuel' id kind operation operation' first' second',
    resolve hooks fuel id kind first = .ok operation first' →
    resolve hooks fuel' id kind { second with table := first'.table } = .ok operation' second' →
    operation = operation'
  table : ∀ fuel fuel' ids ids' rows rows' first' second',
    operationTable hooks fuel ids first = .ok rows first' →
    operationTable hooks fuel' ids' { second with table := first'.table } = .ok rows' second' →
    ids.Perm ids' → rows.Perm rows'

theorem answersAgree_of_agrees {table : TypeTable} {first second : Resolver}
    (shared : SharedRun hooks table first second)
    (agrees : ∀ later later', SharedRun hooks table later later' → Agrees later later') :
    AnswersAgree hooks first second where
  unresolvable fuel fuel' id answer answer' first' second' run run' := by
    have answered : (Query.isUnresolvable id).ask hooks fuel first = .ok () first' :=
      answered_of_ok run
    have answered' : (Query.isUnresolvable id).ask hooks fuel'
        { second with table := first'.table } = .ok () second' := answered_of_ok run'
    obtain ⟨both, consults⟩ := shared.both answered answered'
    have agree := agrees _ _ both
    have sound := shared.shares.firstSound
    have idle := (sound.asked answered).ready.idle
    have settled := settled_of_run sound.ready.idle run
    have settled' := settled_of_run (shared.first answered).shares.secondSound.ready.idle run'
    cases answer with
    | true =>
        cases answer' with
        | true => rfl
        | false => exact absurd settled' (agree.held id (Held.extends_ settled idle consults.toExtends))
    | false =>
        cases answer' with
        | true =>
            exact absurd settled' (agree.clear id (Clear.extends_ settled idle consults.toExtends))
        | false => rfl
  operation fuel fuel' id kind operation operation' first' second' run run' := by
    have answered : (Query.resolve id kind).ask hooks fuel first = .ok () first' :=
      answered_of_ok run
    have answered' : (Query.resolve id kind).ask hooks fuel'
        { second with table := first'.table } = .ok () second' := answered_of_ok run'
    obtain ⟨both, _⟩ := shared.both answered answered'
    obtain ⟨kept, isOperation⟩ := resolve_kept run
    obtain ⟨kept', isOperation'⟩ := resolve_kept run'
    rw [isOperation, isOperation', operations_agree both.shares (agrees _ _ both) kept kept']
  table fuel fuel' ids ids' rows rows' first' second' run run' perm := by
    have answered : (Query.operationTable ids).ask hooks fuel first = .ok () first' :=
      answered_of_ok run
    have answered' : (Query.operationTable ids').ask hooks fuel'
        { second with table := first'.table } = .ok () second' := answered_of_ok run'
    obtain ⟨both, _⟩ := shared.both answered answered'
    obtain ⟨rfl, keeps⟩ := operationTable_kept run
    obtain ⟨rfl, keeps'⟩ := operationTable_kept run'
    have sameRows : ids'.map first'.keptRow = ids'.map second'.keptRow := by
      refine List.map_congr_left fun id member => ?_
      have sameKept (kind : OpKind) : first'.operations.lookup (id, kind) =
          second'.operations.lookup (id, kind) := by
        obtain ⟨outcome, kept⟩ :=
          Option.isSome_iff_exists.mp (keeps id (perm.mem_iff.mpr member) kind)
        obtain ⟨other, kept'⟩ := Option.isSome_iff_exists.mp (keeps' id member kind)
        rw [kept, kept', operations_agree both.shares (agrees _ _ both) kept kept']
      simp only [keptRow, sameKept]
    rw [← sameRows]
    exact perm.map first'.keptRow

/-- The answers of two resolvers never depend on what they were asked before exactly when
their verdicts always make the same types endless.  That is so wherever no generic object
is judged both ways. -/
theorem answersAgree_iff_sameTypes (table : TypeTable) :
    ((∀ first second, SharedRun hooks table first second → AnswersAgree hooks first second) ↔
      ∀ first second, SharedRun hooks table first second → SameTypes first second) ∧
    ∀ first second, SharedRun hooks table first second → SameVerdicts first second →
      SameTypes first second := by
  refine ⟨⟨fun agree first second shared => ?_, fun same first second shared => ?_⟩,
    fun first second shared same => ?_⟩
  · have shares := shared.shares
    refine (sameTypes_iff_agrees shares).mpr ⟨shares.sameTable, fun id held clear => ?_,
      fun id clear held => ?_⟩
    · have sameTable : { second with table := first.table } = second := by rw [shares.sameTable]
      have run := clear.run 0
      rw [← sameTable] at run
      cases (agree first second shared).unresolvable 1 1 id _ _ _ _ (held.run 0) run
    · have sameTable : { second with table := first.table } = second := by rw [shares.sameTable]
      have run := held.run 0
      rw [← sameTable] at run
      cases (agree first second shared).unresolvable 1 1 id _ _ _ _ (clear.run 0) run
  · exact answersAgree_of_agrees shared fun later later' both =>
      (sameTypes_iff_agrees both.shares).mp (same later later' both)
  · exact (sameTypes_iff_agrees shared.shares).mpr (agrees_of_sameVerdicts shared.shares same)

/-- Sequences nested around a type; the innermost one has the id `start`. -/
def nestedSequences (inner start : TypeId) (count : Nat) : List Cell :=
  (List.range count).map fun (depth : Nat) =>
    { type := .wrap .seq (if depth = 0 then inner else start + depth - 1) }

/-- Two generic objects, each of which holds an instance of the other one for its type
parameter nested in 33 sequences. -/
def pingPongTable : TypeTable where
  cells := List.toArray <|
    [{ type := .object { name := "Ping", params := [2], span := {}
                         body := { fields := [⟨"next", 71⟩] } } },
      { type := .typevar "T" },
      { type := .object { name := "Pong", params := [4], span := {}
                          body := { fields := [⟨"next", 72⟩] } } },
      { type := .typevar "T" }] ++
    nestedSequences 2 5 33 ++ nestedSequences 4 38 33 ++
    [{ type := .applied 3 [37] }, { type := .applied 1 [70] }]

/-- A resolver that was asked about the first of the two objects. -/
def askedPing : Resolver := (isUnresolvable 9 1).finish { table := pingPongTable }

/-- Another resolver, over the same table, that was asked about the second one. -/
def askedPong : Resolver := (isUnresolvable 9 3).finish { table := askedPing.table }

/-- The object that is asked about first takes the blame for the growth, and the other one
is found harmless for good. -/
theorem not_answersAgree_pingPong :
    ¬ ∀ first second, SharedRun { frozen := true } pingPongTable first second →
      AnswersAgree { frozen := true } first second := by
  intro agree
  have askPing : (isUnresolvable 9 1).result? { table := pingPongTable } = some true := by
    decide +kernel
  have askPong : (isUnresolvable 9 3).result? { table := askedPing.table } = some true := by
    decide +kernel
  have again : (isUnresolvable 9 1).result? { askedPing with table := askedPong.table } =
      some true := by
    decide +kernel
  have other : (isUnresolvable 9 1).result? { askedPong with table :=
      ((isUnresolvable 9 1).finish { askedPing with table := askedPong.table }).table } =
      some false := by
    decide +kernel
  have answered : (Query.isUnresolvable 1).ask { frozen := true } 9 { table := pingPongTable } =
      .ok () askedPing := answered_of_ok (run_of_result? askPing)
  have answered' : (Query.isUnresolvable 3).ask { frozen := true } 9 { table := askedPing.table } =
      .ok () askedPong := answered_of_ok (run_of_result? askPong)
  have shared := (SharedRun.start.first answered).second answered'
  cases (agree _ _ shared).unresolvable 9 9 1 true false _ _ (run_of_result? again)
    (run_of_result? other)

end Answers
end Resolver
end LifecycleHooks

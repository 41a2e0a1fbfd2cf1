import LifecycleHooks.Proofs.Lifting.Components
import LifecycleHooks.Proofs.Lifting.FalseAlarms
import LifecycleHooks.Proofs.Lifting.Repetition

/-!
# Recursion by value is reported once

Where no order of judgements finds a growing object, a resolver that answers its queries
settles for every type whether it contains itself by value.  Each of its reports tells of a
strongly connected component of containment by value.  No component is reported twice, and
each component is reported of which a member was met.
-/

namespace LifecycleHooks

open Attempt ResolveM Resolver TypeTable

namespace Resolver

variable {table : TypeTable} {met : List TypeId} {resolver later final : Resolver} {id : TypeId}

/-- The states that a resolver comes to while it answers its queries over a table, step by step.
The types are listed that it met: those it was asked about, by itself or by others, whether they
have no finite structure. -/
inductive Consulted (table : TypeTable) : List TypeId → Resolver → Prop where
  | start : Consulted table [] { table := table }
  | asked {met : List TypeId} {resolver final : Resolver} (earlier : Consulted table met resolver) {fuel : Nat}
      {id : TypeId} {answer : Bool} (run : isUnresolvable fuel id resolver = .ok answer final) :
      Consulted table (id :: met) final
  /-- The operation of a type that was met is kept. -/
  | kept {met : List TypeId} {resolver : Resolver} (earlier : Consulted table met resolver) {id : TypeId}
      (isMet : id ∈ met) {kind : OpKind} (unknown : resolver.operations.lookup (id, kind) = none) (outcome : Outcome) :
      Consulted table met { resolver with operations := ((id, kind), outcome) :: resolver.operations }
  /-- Types are made or looked into, and no body is replaced. -/
  | shared {met : List TypeId} {resolver : Resolver} (earlier : Consulted table met resolver) (call : TableCall)
      (grows : call.isDefinition = false) (has : ∀ id ∈ call.given, resolver.table.Has id) :
      Consulted table met { resolver with table := call.run.finish resolver.table }

section Keeping

/-- What holds of a resolver whose answers and reports can be relied on. -/
structure Reliable (met : List TypeId) (resolver : Resolver) : Prop where
  founded : resolver.Founded
  judging : resolver.judging = []
  allShallow : resolver.table.AllShallow
  charted : resolver.Charted
  idle : resolver.Idle
  accounted : resolver.Accounted
  settled : ∀ id ∈ met, resolver.table.Has id ∧ (resolver.Held id ∨ resolver.Clear id)

theorem Reliable.intact (reliable : resolver.Reliable met) : resolver.Intact :=
  reliable.founded.intact

/-- No type is judged to grow. -/
theorem Reliable.spared (reliable : resolver.Reliable met) (id : TypeId) : ¬ resolver.Judged id true :=
  reliable.founded.not_judged fun head _ => reliable.allShallow head

theorem reliable_fresh (regular : table.Regular) (allShallow : table.AllShallow) :
    Reliable [] { table := table } where
  founded := fresh_founded regular
  judging := rfl
  allShallow := allShallow
  charted := ⟨⟨rfl, rfl, by simp, by simp, by simp⟩, by simp⟩
  idle := ⟨rfl, by simp⟩
  accounted := ⟨⟨regular, by simp, by simp⟩, [], ⟨.nil, by simp, by simp, .nil⟩⟩
  settled := by simp

theorem Reliable.settled_extends (reliable : resolver.Reliable met) (extends_ : resolver.Extends later) :
    ∀ id ∈ met, later.table.Has id ∧ (later.Held id ∨ later.Clear id) := fun id isMet => by
  obtain ⟨has, settled⟩ := reliable.settled id isMet
  exact ⟨has.extends_ extends_.table, settled.imp (·.extends_ reliable.idle extends_) (·.extends_ reliable.idle extends_)⟩

theorem Reliable.asked {fuel : Nat} {answer : Bool} (reliable : resolver.Reliable met)
    (run : isUnresolvable fuel id resolver = .ok answer final) : final.Reliable (id :: met) := by
  have extends_ := ((isUnresolvable_consults fuel id).of_ok run).toExtends
  obtain ⟨founded, judging⟩ :=
    ((founded_leadsQueries {}).unresolvable fuel id).of_ok run ⟨reliable.founded, reliable.judging⟩
  obtain ⟨_, unfolds⟩ := ((intact_leadsQueries {}).unresolvable fuel id).of_ok run reliable.intact
  have has : resolver.table.Has id := by
    obtain ⟨_, _, judged, _⟩ := bind_eq_ok.mp run
    exact has_of_growsForever judged
  have settled := settled_of_run reliable.idle run
  exact
    { founded := founded
      judging := judging
      allShallow := reliable.allShallow.unfolds reliable.intact.regular.toWellFormed unfolds
      charted := ((charted_leadsQueries {}).unresolvable fuel id).of_ok run reliable.charted
      idle := reliable.idle.extends_ extends_
      accounted := (isUnresolvable_accounted fuel id).of_ok run reliable.accounted
      settled := List.forall_mem_cons.mpr
        ⟨⟨has.extends_ extends_.table, by cases answer <;> simp_all⟩, reliable.settled_extends extends_⟩ }

theorem Reliable.kept {kind : OpKind} (reliable : resolver.Reliable met)
    (unknown : resolver.operations.lookup (id, kind) = none) (outcome : Outcome) :
    Reliable met { resolver with operations := ((id, kind), outcome) :: resolver.operations } where
  founded := reliable.founded.of_eq rfl rfl rfl rfl
  judging := reliable.judging
  allShallow := reliable.allShallow
  charted := reliable.charted.stands { refl_of Learns resolver with links := rfl, trail := rfl, visited := rfl, cycles := rfl }
  idle := reliable.idle.extends_ (extends_keep unknown)
  accounted := reliable.accounted.silent { refl_of Silent resolver with } (staysIntact_of_eq rfl rfl rfl)
  settled := reliable.settled_extends (extends_keep unknown)

theorem Reliable.shared {call : TableCall} (reliable : resolver.Reliable met) (grows : call.isDefinition = false)
    (has : ∀ id ∈ call.given, resolver.table.Has id) :
    Reliable met { resolver with table := call.run.finish resolver.table } := by
  have regular := reliable.intact.regular
  have grown := (call.run_extends grows).finish resolver.table
  have extends_ := (consults_table grown).toExtends
  have learns : resolver.Learns { resolver with table := call.run.finish resolver.table } := ⟨grown, fun _ _ known => known⟩
  have intact := reliable.intact.grown (call.run_regular regular has) grown
  obtain ⟨_, reports, booked⟩ := reliable.accounted
  exact
    { founded := reliable.founded.extends_ intact grown rfl
      judging := reliable.judging
      allShallow := reliable.allShallow.extends_ regular.toWellFormed intact.regular.toWellFormed grown
        fun _ _ => call.run_bare grows regular
      charted := reliable.charted.stands { learns with links := rfl, trail := rfl, visited := rfl, cycles := rfl }
      idle := reliable.idle.extends_ extends_
      accounted := ⟨intact, reports, booked.silent { learns with
        cycles := List.Subset.refl _, reported := rfl, diagnostics := rfl }⟩
      settled := reliable.settled_extends extends_ }

theorem Consulted.reliable (built : table.Built) (allShallow : table.AllShallow)
    (consulted : Consulted table met resolver) : resolver.Reliable met := by
  induction consulted with
  | start => exact reliable_fresh built.regular allShallow
  | asked _ run reliable => exact reliable.asked run
  | kept _ _ unknown outcome reliable => exact reliable.kept unknown outcome
  | shared _ _ grows has reliable => exact reliable.shared grows has

end Keeping

section Answering

/-- Whether a type has no finite structure is settled, and it has none when it contains itself. -/
theorem Reliable.isUnresolvable_settles (reliable : resolver.Reliable met) (has : resolver.table.Has id) :
    Settles (fun answer _ => answer = true ↔ resolver.table.ContainsItself id)
      (fun fuel => isUnresolvable fuel id) resolver := by
  have wellFormed := reliable.intact.regular.toWellFormed
  have finite := (wellFormed.finite_contents reliable.allShallow has).subset (reach_subset_contents resolver id)
  have confined := confined_reach reliable.intact reliable.judging id
  have within : resolver.table.Within (resolver.reach id) id := ⟨has, .refl⟩
  refine (ResolveM.isUnresolvable_settles finite confined within).mono fun answer final fuel run _ => ?_
  have later := reliable.asked run
  have extends_ := ((isUnresolvable_consults fuel id).of_ok run).toExtends.table
  rw [← wellFormed.containsItself_extends extends_ has]
  have settled := settled_of_run reliable.idle run
  cases answer with
  | true =>
      cases settled with
      | grows judged => exact absurd judged (later.spared id)
      | cyclic _ visited onCycle =>
          have onCycle : (final.cycles.lookup id).isSome = true := by simp [onCycle]
          exact iff_of_true rfl ((later.charted.isSome_cycle_iff later.intact later.spared visited).mp onCycle)
  | false =>
      refine iff_of_false (by simp) fun itself => ?_
      have onCycle := (later.charted.isSome_cycle_iff later.intact later.spared settled.visited).mpr itself
      simp [settled.onNoCycle] at onCycle

end Answering

section Reporting

variable {reports : List Report}

/-- Each type that contains itself and was met is told of. -/
theorem Reliable.told (reliable : resolver.Reliable met) (booked : resolver.Booked reports) (isMet : id ∈ met)
    (itself : resolver.table.ContainsItself id) : ∃ report ∈ reports, id ∈ report.members := by
  refine (booked.marked id).mp ?_
  rcases (reliable.settled id isMet).2 with held | clear
  · cases held with
    | grows judged => exact absurd judged (reliable.spared id)
    | cyclic _ _ _ reported => exact reported
  · have onCycle := (reliable.charted.isSome_cycle_iff reliable.intact reliable.spared clear.visited).mpr itself
    simp [clear.onNoCycle] at onCycle

end Reporting

section Consulting

variable {hooks : Registry} {kind : OpKind} {fuel : Nat}

/-- The resolver goes on being consulted, and what was met stays met. -/
def GoesOn (table : TypeTable) (resolver later : Resolver) : Prop :=
  ∀ met, Consulted table met resolver → ∃ further, met ⊆ further ∧ Consulted table further later

instance (table : TypeTable) : IsPreorder Resolver (GoesOn table) where
  refl _ met consulted := ⟨met, List.Subset.refl _, consulted⟩
  trans _ _ _ first second met consulted := by
    obtain ⟨further, keeps, middle⟩ := first met consulted
    obtain ⟨last, keepsOn, later⟩ := second further middle
    exact ⟨last, List.Subset.trans keeps keepsOn, later⟩

theorem Consulted.extends_ (consulted : Consulted table met resolver) : Extends { table := table } resolver := by
  induction consulted with
  | start => exact refl_of Extends _
  | asked _ run ih => exact ih.trans ((isUnresolvable_consults _ _).of_ok run).toExtends
  | kept _ _ unknown _ ih => exact ih.trans (extends_keep unknown)
  | shared _ call grows _ ih => exact ih.trans (consults_table ((call.run_extends grows).finish _)).toExtends

theorem Consulted.idle (consulted : Consulted table met resolver) : resolver.Idle :=
  Idle.extends_ ⟨rfl, by simp⟩ consulted.extends_

/-- Operations are kept of types that were met. -/
theorem Consulted.isMet {outcome : Outcome} (consulted : Consulted table met resolver)
    (known : resolver.operations.lookup (id, kind) = some outcome) : id ∈ met := by
  induction consulted with
  | start => simp at known
  | asked _ run ih =>
      rw [((isUnresolvable_consults _ _).of_ok run).unresolved] at known
      exact List.mem_cons_of_mem _ (ih known)
  | @kept _ resolver _ other isMet otherKind _ _ ih =>
      by_cases same : (id, kind) = (other, otherKind)
      · obtain ⟨rfl, _⟩ := Prod.mk.inj same
        exact isMet
      · rw [lookup_cons_of_ne same] at known
        exact ih known
  | shared _ _ _ _ ih => exact ih known

/-- Asked again, the resolver gives the same answer at once. -/
theorem isUnresolvable_again {answer : Bool} (idle : resolver.Idle)
    (run : isUnresolvable fuel id resolver = .ok answer final) : isUnresolvable fuel id final = .ok answer final := by
  have settled := settled_of_run idle run
  cases fuel with
  | zero => cases run
  | succ fuel =>
      cases answer with
      | true => exact settled.run fuel
      | false => exact settled.run fuel

theorem onTable_goesOn {Result : Type} {action : TableM Result} (call : TableCall)
    (carriesOut : call.run = do let _ ← action) (grows : call.isDefinition = false)
    (known : ∀ before result after, action before = .ok result after → ∀ id ∈ call.given, before.Has id) :
    (onTable action).Leads (GoesOn table) fun _ _ => True :=
  leads_of_ok fun resolver result _ run met consulted => by
    obtain ⟨larger, answered, rfl⟩ := onTable_eq_ok.mp run
    have becomes : call.run.finish resolver.table = larger := by
      rw [carriesOut, TableCall.finish_bind_pure, finish_of_ok answered]
    exact ⟨met, List.Subset.refl _, becomes ▸ .shared consulted call grows (known _ _ _ answered)⟩

theorem goesOn_leadsVerdicts (table : TypeTable) : LeadsVerdicts (GoesOn table) fun _ _ => True where
  bodies id := onTable_goesOn (.body id) rfl rfl fun _ _ _ run => by
    obtain ⟨_, _, fetched, _⟩ := bind_eq_ok.mp run
    exact List.forall_mem_singleton.mpr (has_of_get? (TableM.fetch_eq_ok.mp fetched).1)
  constituents id := onTable_goesOn (.constituents id) rfl rfl fun _ _ _ run => by
    obtain ⟨_, _, fetched, _⟩ := bind_eq_ok.mp run
    exact List.forall_mem_singleton.mpr (has_of_get? (TableM.fetch_eq_ok.mp fetched).1)
  unresolvable _ id := leads_of_ok fun _ _ _ run met consulted =>
    ⟨id :: met, List.subset_cons_self id met, .asked consulted run⟩

/-- A resolver that gives an operation has met its type. -/
theorem Consulted.resolve {operation : Operation} (consulted : Consulted table met resolver)
    (run : ResolveM.resolve hooks fuel id kind resolver = .ok operation final) :
    ∃ further, met ⊆ further ∧ id ∈ further ∧ Consulted table further final := by
  unfold ResolveM.resolve at run
  split at run
  · cases run
  · rw [bind_run_of_ok (known?_run resolver id kind)] at run
    cases known : resolver.operations.lookup (id, kind) with
    | some outcome =>
        rw [known] at run
        obtain ⟨_, rfl⟩ := EStateM.Result.ok.inj run
        exact ⟨met, List.Subset.refl _, consulted.isMet known, consulted⟩
    | none =>
        rw [known] at run
        obtain ⟨outcome, determined, determining, run⟩ := bind_eq_ok.mp run
        obtain ⟨_, rfl⟩ := EStateM.Result.ok.inj run
        have unknown := ((determine_consults hooks fuel id kind).of_ok determining).unresolved ▸ known
        -- The answer about the type itself comes first, and is given again.
        unfold determine at determining
        obtain ⟨answer, asked, asking, determining⟩ := bind_eq_ok.mp determining
        have again : determine hooks fuel id kind asked = .ok outcome determined := by
          unfold determine
          rw [bind_run_of_ok (isUnresolvable_again consulted.idle asking)]
          exact determining
        obtain ⟨further, keeps, later⟩ :=
          (determine_leads (goesOn_leadsVerdicts table) hooks fuel id kind).of_ok again _ (.asked consulted asking)
        obtain ⟨isMet, stays⟩ := List.cons_subset.mp keeps
        exact ⟨further, stays, isMet, .kept later isMet unknown outcome⟩

theorem goesOn_leadsQueries (table : TypeTable) (hooks : Registry) :
    LeadsQueries hooks (GoesOn table) fun _ _ => True where
  toLeadsVerdicts := goesOn_leadsVerdicts table
  resolves _ _ _ := leads_of_ok fun _ _ _ run met consulted => by
    obtain ⟨further, keeps, _, later⟩ := consulted.resolve run
    exact ⟨further, keeps, later⟩

/-- A resolver that gives the operations of several types has met all of them. -/
theorem Consulted.operationTable {ids : List TypeId} {rows : List (TypeId × List Operation)}
    (consulted : Consulted table met resolver)
    (run : ResolveM.operationTable hooks fuel ids resolver = .ok rows final) :
    ∃ further, met ⊆ further ∧ ids ⊆ further ∧ Consulted table further final := by
  induction ids generalizing met resolver rows with
  | nil =>
      obtain ⟨_, rfl⟩ := EStateM.Result.ok.inj run
      exact ⟨met, List.Subset.refl _, List.nil_subset _, consulted⟩
  | cons id ids ih =>
      rw [ResolveM.operationTable, List.mapM_cons] at run
      obtain ⟨row, middle, acting, run⟩ := bind_eq_ok.mp run
      obtain ⟨others, last, goingOn, run⟩ := bind_eq_ok.mp run
      obtain ⟨_, rfl⟩ := EStateM.Result.ok.inj run
      obtain ⟨operations, _, resolving, acting⟩ := bind_eq_ok.mp acting
      obtain ⟨_, rfl⟩ := EStateM.Result.ok.inj acting
      rw [OpKind.all, List.mapM_cons] at resolving
      obtain ⟨first, asked, asking, resolving⟩ := bind_eq_ok.mp resolving
      have resolves (kinds : List OpKind) :
          (do return first :: (← kinds.mapM (ResolveM.resolve hooks fuel id)) : ResolveM (List Operation)).Leads
            (GoesOn table) fun _ _ => True :=
        (leads_mapM fun kind _ => (goesOn_leadsQueries table hooks).resolves fuel id kind).bind fun _ => leads_pure _
      obtain ⟨earlier, keeps, isMet, consultedAsked⟩ := consulted.resolve asking
      obtain ⟨middle, keepsOn, consultedMiddle⟩ := (resolves _).of_ok resolving earlier consultedAsked
      obtain ⟨further, stays, areMet, later⟩ := ih consultedMiddle goingOn
      exact ⟨further, List.Subset.trans (List.Subset.trans keeps keepsOn) stays,
        List.cons_subset.mpr ⟨stays (keepsOn isMet), areMet⟩, later⟩

/-- A resolver that answers a query goes on being consulted, and has met the types that the
query is about. -/
theorem Consulted.query {query : Query} (consulted : Consulted table met resolver)
    (run : query.ask hooks fuel resolver = .ok () final) :
    ∃ further, met ⊆ further ∧ query.subjects ⊆ further ∧ Consulted table further final := by
  have leads := goesOn_leadsQueries table hooks
  cases query with
  | isUnresolvable id =>
      obtain ⟨_, _, asking, run⟩ := bind_eq_ok.mp run
      obtain ⟨_, rfl⟩ := EStateM.Result.ok.inj run
      exact ⟨id :: met, List.subset_cons_self id met, by simp [Query.subjects], .asked consulted asking⟩
  | resolve id kind =>
      obtain ⟨_, _, asking, run⟩ := bind_eq_ok.mp run
      obtain ⟨_, rfl⟩ := EStateM.Result.ok.inj run
      obtain ⟨further, keeps, isMet, later⟩ := consulted.resolve asking
      exact ⟨further, keeps, by simp [Query.subjects, isMet], later⟩
  | operationTable ids =>
      obtain ⟨_, _, asking, run⟩ := bind_eq_ok.mp run
      obtain ⟨_, rfl⟩ := EStateM.Result.ok.inj run
      exact consulted.operationTable asking
  | expand id kind place =>
      obtain ⟨plan, planned, asking, run⟩ := bind_eq_ok.mp run
      obtain ⟨_, rfl⟩ := EStateM.Result.ok.inj run
      cases fuel with
      | zero => cases asking
      | succ fuel =>
          obtain ⟨operation, asked, resolving, rest⟩ := bind_eq_ok.mp asking
          have again : expandWithin hooks kind (fuel + 1) [] id place asked = .ok plan planned := by
            rw [expandWithin, bind_run_of_ok ((resolve_repeats hooks fuel id kind).again resolving (refl_of Extends _))]
            exact rest
          obtain ⟨middle, keeps, isMet, consultedAsked⟩ := consulted.resolve resolving
          obtain ⟨further, keepsOn, later⟩ :=
            (expandWithin_leads leads kind (fuel + 1) [] id place).of_ok again middle consultedAsked
          exact ⟨further, List.Subset.trans keeps keepsOn, by simp [Query.subjects, keepsOn isMet], later⟩
  | copyPlan id place =>
      obtain ⟨plan, planned, asking, run⟩ := bind_eq_ok.mp run
      obtain ⟨_, rfl⟩ := EStateM.Result.ok.inj run
      cases fuel with
      | zero => cases asking
      | succ fuel =>
          obtain ⟨answer, asked, resolving, rest⟩ := bind_eq_ok.mp asking
          have again : copyWithin hooks (fuel + 1) [] id place asked = .ok plan planned := by
            rw [copyWithin_succ, bind_run_of_ok (isUnresolvable_again consulted.idle resolving)]
            exact rest
          obtain ⟨further, keeps, later⟩ := (copyWithin_leads leads (fuel + 1) [] id place).of_ok again _
            (.asked consulted resolving)
          obtain ⟨isMet, stays⟩ := List.cons_subset.mp keeps
          exact ⟨further, stays, by simp [Query.subjects, isMet], later⟩

end Consulting

end Resolver
end LifecycleHooks

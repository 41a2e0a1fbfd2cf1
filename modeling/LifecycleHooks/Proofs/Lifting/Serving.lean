import LifecycleHooks.Proofs.Lifting.Correctness
import LifecycleHooks.Proofs.Types.Building

/-!
# Resolvers in service

A resolver is in service when it was started over a table that was built by its own
operations, and was asked any queries since, answered or not, while other users of the
table went on to make types.  Its table stays regular, and the resolver keeps cycles of
existing types only.
-/

namespace LifecycleHooks
namespace Resolver

open Attempt ResolveM

/-- A resolver with a regular table, whose links and cycles hold existing types. -/
structure Intact (resolver : Resolver) : Prop where
  regular : resolver.table.Regular
  links : ∀ link ∈ resolver.links, resolver.table.Has link.1
  cycles : ∀ entry ∈ resolver.cycles, ∀ member ∈ entry.2, resolver.table.Has member

/-- A larger table leaves a resolver intact. -/
theorem Intact.grown {resolver : Resolver} {larger : TypeTable} (intact : resolver.Intact) (regular : larger.Regular)
    (extends_ : resolver.table.Extends larger) : Intact { resolver with table := larger } where
  regular := regular
  links link member := (intact.links link member).extends_ extends_
  cycles entry inside member isMember := (intact.cycles entry inside member isMember).extends_ extends_

/-- A resolver that is intact if another one is, and has no types of new shapes. -/
def StaysIntact (resolver later : Resolver) : Prop :=
  resolver.Intact → later.Intact ∧ resolver.table.Unfolds later.table

instance : IsPreorder Resolver StaysIntact where
  refl resolver intact := ⟨intact, .refl resolver.table⟩
  trans _ _ _ first second intact := by
    obtain ⟨middle, before⟩ := first intact
    obtain ⟨later, behind⟩ := second middle
    exact ⟨later, before.trans behind⟩

/-- What is neither a table nor a link nor a cycle does not matter. -/
theorem staysIntact_of_eq {resolver later : Resolver} (table : later.table = resolver.table)
    (links : later.links = resolver.links) (cycles : later.cycles = resolver.cycles) :
    StaysIntact resolver later := by
  intro intact
  rw [table]
  refine ⟨⟨table ▸ intact.regular, ?_, ?_⟩, .refl _⟩
  · rw [links, table]
    exact intact.links
  · rw [cycles, table]
    exact intact.cycles

theorem Judges.staysIntact {resolver later : Resolver} (judges : resolver.Judges later) :
    StaysIntact resolver later := by
  intro intact
  obtain ⟨regular, unfolds⟩ := judges.unrolls intact.regular
  refine ⟨⟨regular, ?_, ?_⟩, unfolds⟩
  · rw [judges.links]
    exact fun link member => (intact.links link member).extends_ unfolds.extends_
  · rw [judges.cycles]
    exact fun entry inside member isMember =>
      (intact.cycles entry inside member isMember).extends_ unfolds.extends_

/-- Only existing types can be judged. -/
theorem has_of_growsForever {fuel : Nat} {id : TypeId} {resolver final : Resolver} {grows : Bool}
    (run : growsForever fuel id resolver = .ok grows final) : resolver.table.Has id := by
  cases fuel with
  | zero => cases run
  | succ fuel =>
      unfold growsForever at run
      obtain ⟨head, asked, asking, _⟩ := bind_eq_ok.mp run
      obtain ⟨answered, rfl⟩ := ask_eq_ok.mp asking
      unfold TypeTable.head? at answered
      cases found : asked.table.get id with
      | error fault =>
          rw [found] at answered
          cases answered
      | ok type => exact TypeTable.has_of_get? (TypeTable.get_eq_ok.mp found)

/-- Only about existing types can the resolver tell what they contain. -/
theorem has_of_byValueParts {fuel : Nat} {id : TypeId} {resolver final : Resolver}
    {parts : List TypeId} (run : byValueParts fuel id resolver = .ok parts final) :
    final.table.Has id := by
  have judges := (byValueParts_judges fuel id).of_ok run
  obtain ⟨grows, judged, judging, _⟩ := bind_eq_ok.mp run
  exact (has_of_growsForever judging).extends_ judges.table

theorem link_staysIntact {resolver : Resolver} {id : TypeId} (has : resolver.table.Has id)
    (parts : List TypeId) :
    StaysIntact resolver { resolver with links := resolver.links ++ [(id, parts)] } := by
  intro intact
  refine ⟨⟨intact.regular, fun link member => ?_, intact.cycles⟩, .refl _⟩
  cases List.mem_append.mp member with
  | inl before => exact intact.links link before
  | inr new =>
      obtain rfl := List.mem_singleton.mp new
      exact has

/-- Exploring links existing types only. -/
theorem explore_staysIntact (fuel : Nat) (id : TypeId) :
    (explore fuel id).Preserves StaysIntact := by
  induction fuel generalizing id with
  | zero => exact leads_throw _
  | succ fuel ih =>
      unfold explore
      apply Leads.bind
      · exact leads_modify fun _ => staysIntact_of_eq rfl rfl rfl
      intro _
      have goesOn (parts : List TypeId) :
          (do parts.forM fun part => do
                if part ∉ (← get).visited then
                  explore fuel part
              modify fun resolver => { resolver with trail := resolver.trail.tail } :
            ResolveM Unit).Preserves StaysIntact := by
        refine (leads_forM fun part _ => leads_get.bind fun resolver => ?_).bind fun _ =>
          leads_modify fun _ => staysIntact_of_eq rfl rfl rfl
        split
        · exact ih part
        · exact leads_pure _
      refine preserves_iff.mpr fun resolver => ?_
      refine finish_bind (fun fault middle run => ?_) fun parts middle run => ?_
      · exact ((byValueParts_judges fuel id).of_error run).staysIntact
      · have linked := link_staysIntact (has_of_byValueParts run) parts
        have judged := ((byValueParts_judges fuel id).of_ok run).staysIntact
        exact trans_of StaysIntact (trans_of StaysIntact judged linked) ((goesOn parts).finish _)

theorem settle_staysIntact (resolver : Resolver) : StaysIntact resolver resolver.settle := by
  intro intact
  refine ⟨⟨intact.regular, fun link member => (List.not_mem_nil member).elim,
    fun entry inside member isMember => ?_⟩, .refl _⟩
  cases List.mem_append.mp inside with
  | inl before => exact intact.cycles entry before member isMember
  | inr found =>
      obtain ⟨⟨id, reached⟩, isLink, settled⟩ := List.mem_filterMap.mp found
      dsimp only at settled
      split at settled
      · obtain rfl := Option.some.inj settled
        obtain ⟨other, inReach, rfl⟩ := List.mem_map.mp isMember
        obtain ⟨link, linked, rfl⟩ := List.mem_map.mp (List.mem_filter.mp inReach).1
        exact intact.links link linked
      · cases settled

theorem exploreOnce_staysIntact (fuel : Nat) (id : TypeId) :
    (exploreOnce fuel id).Preserves StaysIntact := by
  refine leads_get.bind fun resolver => ?_
  split
  · exact preserves_andFinally (explore_staysIntact fuel id) fun _ middle stays =>
      trans_of StaysIntact stays (settle_staysIntact middle)
  · exact leads_pure _

/-- Queries leave a resolver intact, whether or not they are answered. -/
theorem intact_leadsQueries (hooks : Registry) : LeadsQueries hooks StaysIntact StaysIntact := by
  apply leadsQueries_of_verdicts hooks
  · apply leadsVerdicts_of_judges (fun _ _ judges => judges.staysIntact) (fun _ _ judges => judges.staysIntact)
      exploreOnce_staysIntact
    · exact fun _ _ => staysIntact_of_eq rfl rfl rfl
    · exact fun _ _ => staysIntact_of_eq rfl rfl rfl
  · exact fun _ _ => staysIntact_of_eq rfl rfl rfl

/-- The resolvers in service. -/
inductive Serving (hooks : Registry) : Resolver → Prop where
  | start {table : TypeTable} (built : table.Built) : Serving hooks { table := table }
  /-- A query is asked. -/
  | asked {resolver : Resolver} (earlier : Serving hooks resolver) (fuel : Nat) (query : Query) :
      Serving hooks ((query.ask hooks fuel).finish resolver)
  /-- Another user of the table makes types or asks about them. -/
  | shared {resolver : Resolver} (earlier : Serving hooks resolver) (call : TableCall)
      (grows : call.isDefinition = false) (has : ∀ id ∈ call.given, resolver.table.Has id) :
      Serving hooks { resolver with table := call.run.finish resolver.table }

section Serving

variable {hooks : Registry} {resolver : Resolver}

theorem Serving.reached (serving : Serving hooks resolver) :
    ∃ table : TypeTable, table.Built ∧ Reached hooks { table := table } resolver := by
  induction serving with
  | start built => exact ⟨_, built, .start⟩
  | asked earlier fuel query ih =>
      obtain ⟨table, built, reached⟩ := ih
      exact ⟨table, built, reached.asked fuel query⟩
  | shared earlier call grows has ih =>
      obtain ⟨table, built, reached⟩ := ih
      exact ⟨table, built, reached.shared ((call.run_extends grows).finish _)⟩

theorem Serving.ready (serving : Serving hooks resolver) : resolver.Ready hooks := by
  obtain ⟨_, _, reached⟩ := serving.reached
  exact reached.ready

theorem Serving.judging (serving : Serving hooks resolver) : resolver.judging = [] := by
  obtain ⟨_, _, reached⟩ := serving.reached
  exact reached.extends_.judging

theorem Serving.intact (serving : Serving hooks resolver) : resolver.Intact := by
  induction serving with
  | start built => exact ⟨built.regular, by simp, by simp⟩
  | asked earlier fuel query intact =>
      have stays : (query.ask hooks fuel).Preserves StaysIntact :=
        query.ask_leads (intact_leadsQueries hooks) fuel
      exact (stays.finish _ intact).1
  | @shared resolver earlier call grows has intact =>
      exact intact.grown (call.run_regular intact.regular has) ((call.run_extends grows).finish resolver.table)

theorem Serving.asked_isUnresolvable {fuel : Nat} {id : TypeId} {answer : Bool} {final : Resolver} (serving : Serving hooks resolver)
    (run : isUnresolvable fuel id resolver = .ok answer final) : Serving hooks final := by
  have asked := serving.asked fuel (.isUnresolvable id)
  rwa [Query.ask, finish, bind_run_of_ok run] at asked

theorem Serving.asked_resolve {fuel : Nat} {id : TypeId} {kind : OpKind} {operation : Operation} {final : Resolver}
    (serving : Serving hooks resolver) (run : resolve hooks fuel id kind resolver = .ok operation final) :
    Serving hooks final := by
  have asked := serving.asked fuel (.resolve id kind)
  rwa [Query.ask, finish, bind_run_of_ok run] at asked

/-- What holds of a fresh resolver, and neither queries nor other users of the table end, holds
of every resolver in service. -/
theorem Serving.keeps {kept : Resolver → Prop} (starts : ∀ table : TypeTable, table.Built → kept { table := table })
    (leads : LeadsQueries hooks (Lasts kept) (Lasts kept))
    (shares : ∀ (resolver : Resolver) (larger : TypeTable), kept resolver → resolver.table.Extends larger →
      Intact { resolver with table := larger } → kept { resolver with table := larger })
    (serving : Serving hooks resolver) : kept resolver := by
  induction serving with
  | start built => exact starts _ built
  | asked earlier fuel query holds =>
      have asks : (query.ask hooks fuel).Preserves (Lasts kept) := query.ask_leads leads fuel
      exact asks.finish _ holds
  | @shared resolver earlier call grows has holds =>
      have intact := (Serving.shared earlier call grows has).intact
      exact shares _ _ holds ((call.run_extends grows).finish resolver.table) intact

end Serving
end Resolver
end LifecycleHooks

import LifecycleHooks.Proofs.Lifting.Reachability
import LifecycleHooks.Proofs.Lifting.Verdict

/-!
# Explorations find the types that contain themselves

An exploration that comes to its end has followed containment by value from every type
that it visited.  Types visited before do not lead back to the new ones, so a type
contains itself by value exactly when the exploration that visited it found its cycle.
-/

namespace LifecycleHooks
namespace Resolver

open Attempt ResolveM

/-- The types that a type contains directly by value, once they are known. -/
def Parts (resolver : Resolver) (id : TypeId) (parts : List TypeId) : Prop :=
  byValueParts 1 id resolver = .ok parts resolver

/-- One type contains another one directly by value, as far as is known. -/
def ByValue (resolver : Resolver) (id other : TypeId) : Prop :=
  ∃ parts, resolver.Parts id parts ∧ other ∈ parts

theorem Parts.unique {resolver : Resolver} {id : TypeId} {parts others : List TypeId}
    (first : resolver.Parts id parts) (second : resolver.Parts id others) : parts = others :=
  (EStateM.Result.ok.inj (first.symm.trans second)).1

/-- Parts that were worked out are known from then on. -/
theorem parts_of_run {fuel : Nat} {id : TypeId} {resolver final later : Resolver}
    {parts : List TypeId} (run : byValueParts fuel id resolver = .ok parts final)
    (learns : final.Learns later) : later.Parts id parts := by
  unfold byValueParts at run
  obtain ⟨grows, judged, judging, rest⟩ := bind_eq_ok.mp run
  have verdict := judged_of_run judging
  unfold Parts byValueParts
  cases grows with
  | true =>
      obtain ⟨rfl, rfl⟩ := EStateM.Result.ok.inj rest
      rw [bind_run_of_ok ((verdict.learns learns).run 0)]
      rfl
  | false =>
      rw [if_neg (by simp)] at rest
      obtain ⟨type, middle, fetched, rest⟩ := bind_eq_ok.mp rest
      obtain ⟨isType, unchanged⟩ := fetch_eq_ok.mp fetched
      rw [unchanged] at rest
      split at rest
      · rename_i byValue
        obtain ⟨slots, worked, working, rest⟩ := bind_eq_ok.mp rest
        obtain ⟨rfl, rfl⟩ := EStateM.Result.ok.inj rest
        have works := (constituents_judges id).of_ok working
        have onwards := trans_of Learns works.toLearns learns
        rw [bind_run_of_ok ((verdict.learns onwards).run 0), if_neg (by simp),
          bind_run_of_ok (fetch_eq_ok.mpr ⟨onwards.table.get isType, rfl⟩), if_pos byValue]
        obtain ⟨table, asked, rfl⟩ := onTable_eq_ok.mp working
        have kept : onTable (TableM.constituents id) later = .ok slots later :=
          onTable_eq_ok.mpr ⟨later.table, TableM.constituents_kept asked learns.table, rfl⟩
        rw [bind_run_of_ok kept]
        rfl
      · rename_i notByValue
        obtain ⟨rfl, rfl⟩ := EStateM.Result.ok.inj rest
        rw [bind_run_of_ok ((verdict.learns learns).run 0), if_neg (by simp),
          bind_run_of_ok (fetch_eq_ok.mpr ⟨learns.table.get isType, rfl⟩), if_neg notByValue]
        rfl

theorem Parts.learns {resolver later : Resolver} {id : TypeId} {parts : List TypeId}
    (known : resolver.Parts id parts) (learns : resolver.Learns later) : later.Parts id parts :=
  parts_of_run known learns

/-- Parts that are known come from a known verdict and from the table. -/
theorem Parts.cases {resolver : Resolver} {id : TypeId} {parts : List TypeId}
    (known : resolver.Parts id parts) :
    ∃ grows, resolver.Judged id grows ∧
      (grows = true ∧ parts = [] ∨
        grows = false ∧ ∃ type, resolver.table.get id = .ok type ∧
          (containsByValue type = false ∧ parts = [] ∨
            containsByValue type = true ∧ ∃ slots, parts = slots.map Slot.type ∧
              TableM.constituents id resolver.table = .ok slots resolver.table)) := by
  unfold Parts byValueParts at known
  obtain ⟨grows, judged, judging, rest⟩ := bind_eq_ok.mp known
  have verdict := judged_of_run judging
  refine ⟨grows, ?_⟩
  cases grows with
  | true =>
      obtain ⟨rfl, rfl⟩ := EStateM.Result.ok.inj rest
      exact ⟨verdict, .inl ⟨rfl, rfl⟩⟩
  | false =>
      rw [if_neg (by simp)] at rest
      obtain ⟨type, middle, fetched, rest⟩ := bind_eq_ok.mp rest
      obtain ⟨isType, unchanged⟩ := fetch_eq_ok.mp fetched
      rw [unchanged] at rest
      split at rest
      · rename_i byValue
        obtain ⟨slots, worked, working, rest⟩ := bind_eq_ok.mp rest
        obtain ⟨rfl, rfl⟩ := EStateM.Result.ok.inj rest
        have works := (constituents_judges id).of_ok working
        obtain ⟨table, asked, equal⟩ := onTable_eq_ok.mp working
        have sameTable : worked.table = table := by rw [equal]
        refine ⟨verdict.learns works.toLearns, .inr ⟨rfl, type, works.table.get isType,
          .inr ⟨byValue, slots, rfl, ?_⟩⟩⟩
        rw [sameTable]
        exact TableM.constituents_kept asked (.refl table)
      · rename_i notByValue
        obtain ⟨rfl, rfl⟩ := EStateM.Result.ok.inj rest
        exact ⟨verdict, .inr ⟨rfl, type, isType, .inl ⟨by simpa using notByValue, rfl⟩⟩⟩

/-- A resolver whose exploration went on from another one and left nothing open: of
every type that it visited since, it visited all parts. -/
structure Maps (resolver later : Resolver) : Prop extends Explores resolver later where
  trail : later.trail = resolver.trail
  mapped : ∃ more, later.links = resolver.links ++ more ∧
    (∀ id ∈ later.visited, id ∈ resolver.visited ∨ ∃ link ∈ more, link.1 = id) ∧
    ∀ link ∈ more, later.Parts link.1 link.2 ∧ link.2 ⊆ later.visited

instance : IsPreorder Resolver Maps where
  refl resolver :=
    ⟨refl_of Explores resolver, rfl, [], by simp, fun _ member => .inl member, by simp⟩
  trans _ _ _ first second := by
    obtain ⟨more, moreLinks, moreVisited, moreParts⟩ := first.mapped
    obtain ⟨others, otherLinks, othersVisited, othersParts⟩ := second.mapped
    refine ⟨trans_of Explores first.toExplores second.toExplores, second.trail.trans first.trail,
      more ++ others, by simp [otherLinks, moreLinks], fun id member => ?_, fun link member => ?_⟩
    · rcases othersVisited id member with before | ⟨link, isLink, same⟩
      · rcases moreVisited id before with early | ⟨link, isLink, same⟩
        · exact .inl early
        · exact .inr ⟨link, List.mem_append_left _ isLink, same⟩
      · exact .inr ⟨link, List.mem_append_right _ isLink, same⟩
    · rcases List.mem_append.mp member with early | late
      · obtain ⟨parts, visited⟩ := moreParts link early
        exact ⟨parts.learns second.toLearns, fun _ inside => second.visited (visited inside)⟩
      · exact othersParts link late

/-- An exploration that comes to its end leaves nothing open. -/
theorem explore_maps {fuel : Nat} {id : TypeId} {resolver final : Resolver}
    (new : id ∉ resolver.visited) (run : explore fuel id resolver = .ok () final) :
    resolver.Maps final := by
  induction fuel generalizing id resolver final with
  | zero => cases run
  | succ fuel ih =>
      have explores : resolver.Explores final := finish_of_ok run ▸ explore_explores _ id resolver new
      unfold explore at run
      rw [modify_bind_run] at run
      obtain ⟨parts, judged, judging, run⟩ := bind_eq_ok.mp run
      have judges := (byValueParts_judges fuel id).of_ok judging
      rw [modify_bind_run] at run
      obtain ⟨_, explored, exploring, run⟩ := bind_eq_ok.mp run
      obtain ⟨_, rfl⟩ := EStateM.Result.ok.inj run
      have visitsPart (part : TypeId) (before after : Resolver)
          (run : (do if part ∉ (← get).visited then explore fuel part : ResolveM Unit) before =
            .ok () after) : before.Maps after ∧ part ∈ after.visited := by
        rw [get_bind_run] at run
        split at run
        · rename_i unvisited
          exact ⟨ih unvisited run, visited_of_explore unvisited run⟩
        · rename_i visited
          obtain ⟨_, rfl⟩ := EStateM.Result.ok.inj run
          exact ⟨refl_of Maps before, not_not.mp visited⟩
      have leads (part : TypeId) :
          (do if part ∉ (← get).visited then explore fuel part : ResolveM Unit).Leads Maps
            fun _ _ => True :=
        leads_of_ok fun before _ after run => (visitsPart part before after run).1
      have maps := (leads_forM fun part _ => leads part).of_ok exploring
      have visitsAll : ∀ part ∈ parts, part ∈ explored.visited :=
        forM_brings (fun (after : Resolver) part => part ∈ after.visited) leads
          (fun part before after run => (visitsPart part before after run).2)
          (fun part before after visited maps => maps.visited visited) exploring
      obtain ⟨more, moreLinks, moreVisited, moreParts⟩ := maps.mapped
      refine ⟨explores, ?_, (id, parts) :: more, ?_, fun other member => ?_, fun link member => ?_⟩
      · simp [maps.trail, judges.trail]
      · simp [moreLinks, judges.links]
      · rcases moreVisited other member with before | ⟨link, isLink, same⟩
        · rw [judges.visited] at before
          rcases List.mem_cons.mp before with rfl | early
          · exact .inr ⟨(other, parts), List.mem_cons_self, rfl⟩
          · exact .inl early
        · exact .inr ⟨link, List.mem_cons_of_mem _ isLink, same⟩
      · rcases List.mem_cons.mp member with rfl | inMore
        · refine ⟨parts_of_run judging ?_, visitsAll⟩
          exact { maps.toLearns with }
        · obtain ⟨known, visited⟩ := moreParts link inMore
          exact ⟨known.learns { refl_of Learns explored with }, visited⟩

/-- A resolver between two queries all of which were answered: containment by value was
followed to its end from every type visited, and the cycles kept are those of the types
that contain themselves. -/
structure Explored (resolver : Resolver) : Prop where
  links : resolver.links = []
  trail : resolver.trail = []
  parts : ∀ id ∈ resolver.visited, ∃ parts, resolver.Parts id parts ∧ parts ⊆ resolver.visited
  inside : ∀ entry ∈ resolver.cycles, entry.1 ∈ resolver.visited
  cycles : ∀ id ∈ resolver.visited,
    (resolver.cycles.lookup id).isSome = true ↔ Relation.TransGen resolver.ByValue id id

/-- A path stays where it starts, and is one of the other relation too, when every step
from there is. -/
theorem transGen_of_closed {Node : Type} {first second : Node → Node → Prop} {inside : Node → Prop}
    (step : ∀ source other, inside source → first source other → second source other ∧ inside other)
    {source other : Node} (begins : inside source) (path : Relation.TransGen first source other) :
    Relation.TransGen second source other ∧ inside other := by
  induction path with
  | single linked =>
      obtain ⟨same, stays⟩ := step _ _ begins linked
      exact ⟨.single same, stays⟩
  | tail path linked ih =>
      obtain ⟨before, stays⟩ := ih
      obtain ⟨same, staysAgain⟩ := step _ _ stays linked
      exact ⟨before.tail same, staysAgain⟩

theorem ByValue.learns {resolver later : Resolver} (learns : resolver.Learns later)
    {id other : TypeId} (linked : resolver.ByValue id other) : later.ByValue id other := by
  obtain ⟨parts, known, inParts⟩ := linked
  exact ⟨parts, known.learns learns, inParts⟩

theorem byValue_path_learns {resolver later : Resolver} (learns : resolver.Learns later)
    {id other : TypeId} (path : Relation.TransGen resolver.ByValue id other) :
    Relation.TransGen later.ByValue id other :=
  Relation.TransGen.mono (fun _ _ linked => ByValue.learns learns linked) _ _ path

/-- Later containment by value behind a type visited was known before, and it stays
among the types visited. -/
theorem Explored.path_before {resolver later : Resolver} (explored : resolver.Explored)
    (learns : resolver.Learns later) {id other : TypeId} (visited : id ∈ resolver.visited)
    (path : Relation.TransGen later.ByValue id other) :
    Relation.TransGen resolver.ByValue id other ∧ other ∈ resolver.visited := by
  have step : ∀ id other, id ∈ resolver.visited → later.ByValue id other →
      resolver.ByValue id other ∧ other ∈ resolver.visited := by
    rintro id other member ⟨parts, known, inParts⟩
    obtain ⟨same, knownBefore, visitedParts⟩ := explored.parts id member
    obtain rfl := (knownBefore.learns learns).unique known
    exact ⟨⟨same, knownBefore, inParts⟩, visitedParts inParts⟩
  exact transGen_of_closed step visited path

/-- Without an open trail, a cycle is found for the types that links lead back to. -/
theorem isSome_lookup_foundCycles {resolver : Resolver} (trail : resolver.trail = [])
    {id : TypeId} (linked : ∃ link ∈ resolver.links, link.1 = id) :
    (resolver.foundCycles.lookup id).isSome = true ↔
      Relation.TransGen (Linked resolver.links) id id := by
  rw [List.lookup_isSome_iff, ← mem_reachable]
  constructor
  · rintro ⟨entry, found, same⟩
    obtain ⟨⟨other, reached⟩, member, settled⟩ := List.mem_filterMap.mp found
    obtain ⟨link, _, equal⟩ := List.mem_map.mp member
    obtain ⟨rfl, rfl⟩ := Prod.mk.inj equal
    dsimp only at settled
    split at settled
    · rename_i cyclic
      obtain rfl := Option.some.inj settled
      rw [beq_iff_eq.mp same]
      exact cyclic.1
    · cases settled
  · intro cyclic
    obtain ⟨link, isLink, rfl⟩ := linked
    exact ⟨_, List.mem_filterMap.mpr ⟨_, List.mem_map.mpr ⟨link, isLink, rfl⟩,
      if_pos ⟨cyclic, by simp [trail]⟩⟩, by simp⟩

/-- The links of an exploration show all paths of containment by value that lead to a type
that was not visited before it. -/
theorem linked_path_iff {resolver mapped : Resolver} (explored : resolver.Explored)
    (maps : resolver.Maps mapped) {source target : TypeId} (new : target ∉ resolver.visited)
    (visited : source ∈ mapped.visited) :
    Relation.TransGen (Linked mapped.links) source target ↔ Relation.TransGen mapped.ByValue source target := by
  obtain ⟨more, links, visits, parts⟩ := maps.mapped
  rw [explored.links, List.nil_append] at links
  have linkedByValue : ∀ source other, Linked mapped.links source other →
      mapped.ByValue source other := by
    intro source other linked
    cases found : mapped.links.lookup source with
    | none => simp [Linked, found] at linked
    | some targets =>
        have isLink : (source, targets) ∈ more := links ▸ mem_of_lookup found
        exact ⟨targets, (parts _ isLink).1, by simpa [Linked, found] using linked⟩
  constructor
  · exact Relation.TransGen.mono linkedByValue _ _
  · -- A way to a new type stays among the new types, and these are linked.
    have stillNew : ∀ source, Relation.TransGen mapped.ByValue source target →
        source ∉ resolver.visited := fun source path before =>
      new (explored.path_before maps.toLearns before path).2
    have step : ∀ source other, source ∈ mapped.visited → source ∉ resolver.visited →
        mapped.ByValue source other → Linked mapped.links source other ∧ other ∈ mapped.visited := by
      rintro source other member notBefore ⟨targets, known, inTargets⟩
      obtain ⟨link, isLink, same⟩ := (visits source member).resolve_left notBefore
      obtain ⟨shown, found⟩ : ∃ shown, mapped.links.lookup source = some shown := by
        rw [← Option.isSome_iff_exists, List.lookup_isSome_iff]
        exact ⟨link, links ▸ isLink, by simp [same]⟩
      have isShown : (source, shown) ∈ more := links ▸ mem_of_lookup found
      obtain rfl := (parts _ isShown).1.unique known
      exact ⟨by simpa [Linked, found] using inTargets, (parts _ isShown).2 inTargets⟩
    intro path
    induction path using Relation.TransGen.head_induction_on with
    | single linked => exact .single (step _ _ visited (stillNew _ (.single linked)) linked).1
    | head linked path ih =>
        obtain ⟨first, onwards⟩ := step _ _ visited (stillNew _ (.head linked path)) linked
        exact .head first (ih onwards)

/-- An exploration that comes to its end settles which of the types that it visited
contain themselves. -/
theorem exploreOnce_explored {fuel : Nat} {id : TypeId} {resolver final : Resolver}
    (explored : resolver.Explored) (run : exploreOnce fuel id resolver = .ok () final) :
    final.Explored := by
  have extends_ := ((exploreOnce_consults fuel id).of_ok run).toExtends
  unfold exploreOnce at run
  rw [get_bind_run] at run
  split at run
  · rename_i new
    obtain ⟨mapped, exploring, rfl⟩ := andFinally_eq_ok.mp run
    have maps := explore_maps new exploring
    have settles : mapped.Learns mapped.settle := { refl_of Learns mapped with }
    have unsettles : mapped.settle.Learns mapped := { refl_of Learns mapped with }
    obtain ⟨newLinks, links, isNew⟩ := maps.links
    obtain ⟨more, sameLinks, visits, parts⟩ := maps.mapped
    rw [explored.links, List.nil_append] at links sameLinks
    exact
      { links := rfl
        trail := rfl
        parts := fun other member => by
          rcases visits other member with before | ⟨link, isLink, rfl⟩
          · obtain ⟨known, knownBefore, visited⟩ := explored.parts other before
            exact ⟨known, knownBefore.learns extends_.toLearns, fun _ inside =>
              maps.visited (visited inside)⟩
          · obtain ⟨known, visited⟩ := parts link isLink
            exact ⟨link.2, known.learns settles, visited⟩
        inside := fun entry member => by
          rcases List.mem_append.mp member with before | found
          · rw [maps.cycles] at before
            exact maps.visited (explored.inside entry before)
          · obtain ⟨_, link, isLink, same⟩ := mem_foundCycles found
            rw [links] at isLink
            exact same ▸ (isNew link isLink).2
        cycles := fun other member => by
          by_cases before : other ∈ resolver.visited
          · rw [extends_.lookup_cycles explored.links before, explored.cycles other before]
            exact ⟨byValue_path_learns extends_.toLearns,
              fun path => (explored.path_before extends_.toLearns before path).1⟩
          · have notKept : resolver.cycles.lookup other = none := by
              rw [List.lookup_eq_none_iff]
              intro entry member
              exact bne_iff_ne.mpr fun same => before (same ▸ explored.inside entry member)
            have linked : ∃ link ∈ mapped.links, link.1 = other := by
              rw [sameLinks]
              exact (visits other member).resolve_left before
            have trail : mapped.trail = [] := maps.trail.trans explored.trail
            have found : mapped.settle.cycles.lookup other = mapped.foundCycles.lookup other := by
              change (mapped.cycles ++ mapped.foundCycles).lookup other = _
              rw [List.lookup_append, maps.cycles, notKept, Option.none_or]
            rw [found, isSome_lookup_foundCycles trail linked,
              linked_path_iff explored maps before member]
            exact ⟨byValue_path_learns settles, byValue_path_learns unsettles⟩ }
  · obtain ⟨_, rfl⟩ := EStateM.Result.ok.inj run
    exact explored

/-- A resolver that explored nothing further than another one. -/
structure Stands (resolver later : Resolver) : Prop extends Learns resolver later where
  links : later.links = resolver.links
  trail : later.trail = resolver.trail
  visited : later.visited = resolver.visited
  cycles : later.cycles = resolver.cycles

theorem Explored.stands {resolver later : Resolver} (explored : resolver.Explored)
    (stands : resolver.Stands later) : later.Explored where
  links := stands.links.trans explored.links
  trail := stands.trail.trans explored.trail
  parts id member := by
    rw [stands.visited] at member ⊢
    obtain ⟨parts, known, visited⟩ := explored.parts id member
    exact ⟨parts, known.learns stands.toLearns, visited⟩
  inside entry member := by
    rw [stands.cycles] at member
    rw [stands.visited]
    exact explored.inside entry member
  cycles id member := by
    rw [stands.visited] at member
    rw [stands.cycles, explored.cycles id member]
    exact ⟨byValue_path_learns stands.toLearns,
      fun path => (explored.path_before stands.toLearns member path).1⟩

/-- A resolver that is explored if another one is. -/
def StaysExplored (resolver later : Resolver) : Prop := resolver.Explored → later.Explored

instance : IsPreorder Resolver StaysExplored where
  refl _ explored := explored
  trans _ _ _ first second explored := second (first explored)

/-- Queries that are answered leave the resolver explored. -/
theorem explored_leadsQueries (hooks : Registry) :
    LeadsQueries hooks StaysExplored fun _ _ => True := by
  apply leadsQueries_of_verdicts hooks
  · apply leadsVerdicts_of_judges
    · exact fun resolver later judges explored => explored.stands { judges with }
    · exact fun _ _ _ => trivial
    · exact fun fuel id => leads_of_ok fun _ _ _ run explored => exploreOnce_explored explored run
    · exact fun ids resolver explored => explored.stands { refl_of Learns resolver with
        links := rfl, trail := rfl, visited := rfl, cycles := rfl }
    · exact fun diagnostics resolver explored => explored.stands { refl_of Learns resolver with
        links := rfl, trail := rfl, visited := rfl, cycles := rfl }
  · exact fun operations resolver explored => explored.stands { refl_of Learns resolver with
      links := rfl, trail := rfl, visited := rfl, cycles := rfl }

end Resolver
end LifecycleHooks

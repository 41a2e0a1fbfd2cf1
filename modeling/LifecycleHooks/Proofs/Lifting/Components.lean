import LifecycleHooks.Proofs.Lifting.SelfContainment

/-!
# Cycles are strongly connected components

The cycle that a resolver keeps for a type holds the types that the type contains by value
and that contain it in turn.  An exploration keeps it so: the types that lead to one that it
found are among those that it found, and types visited before lead to none of them.
-/

namespace LifecycleHooks

open Attempt ResolveM TypeTable

namespace TypeTable

/-- Each of two types contains the other one by value. -/
def ContainEachOther (table : TypeTable) (id other : TypeId) : Prop :=
  Relation.TransGen table.ContainsDirectly (table.tree id) (table.tree other) ∧
    Relation.TransGen table.ContainsDirectly (table.tree other) (table.tree id)

variable {table : TypeTable} {id other third : TypeId}

theorem ContainEachOther.symm (both : table.ContainEachOther id other) : table.ContainEachOther other id :=
  ⟨both.2, both.1⟩

theorem ContainEachOther.trans (first : table.ContainEachOther id other) (second : table.ContainEachOther other third) :
    table.ContainEachOther id third :=
  ⟨first.1.trans second.1, second.2.trans first.2⟩

theorem ContainEachOther.containsItself (both : table.ContainEachOther id other) : table.ContainsItself id :=
  both.1.trans both.2

end TypeTable

namespace Resolver

variable {resolver later final : Resolver} {id other : TypeId} {fuel : Nat}

/-- As far as is known, each of two types contains the other one by value. -/
def Entangled (resolver : Resolver) (id other : TypeId) : Prop :=
  Relation.TransGen resolver.ByValue id other ∧ Relation.TransGen resolver.ByValue other id

/-- All that a type visited is entangled with is known. -/
theorem Explored.entangled_iff (explored : resolver.Explored) (learns : resolver.Learns later)
    (visited : id ∈ resolver.visited) : later.Entangled id other ↔ resolver.Entangled id other := by
  constructor
  · rintro ⟨there, back⟩
    obtain ⟨before, visitedOther⟩ := explored.path_before learns visited there
    exact ⟨before, (explored.path_before learns visitedOther back).1⟩
  · exact fun both => both.imp (byValue_path_learns learns) (byValue_path_learns learns)

/-- Without an open trail, the cycle found for a type holds what links lead to and back. -/
theorem mem_foundCycle_iff {entry : TypeId × List TypeId} (found : entry ∈ resolver.foundCycles) :
    other ∈ entry.2 ↔ (∃ link ∈ resolver.links, link.1 = other) ∧
      Relation.TransGen (Linked resolver.links) entry.1 other ∧
      Relation.TransGen (Linked resolver.links) other entry.1 := by
  obtain ⟨⟨id, reached⟩, inReach, settled⟩ := List.mem_filterMap.mp found
  obtain ⟨link, isLink, same⟩ := List.mem_map.mp inReach
  obtain ⟨rfl, rfl⟩ := Prod.mk.inj same
  dsimp only at settled
  split at settled
  · obtain rfl := Option.some.inj settled
    simp only [List.mem_map, List.mem_filter, Bool.and_eq_true, decide_eq_true_eq, ← mem_reachable]
    constructor
    · rintro ⟨_, ⟨⟨member, isMember, rfl⟩, there, back⟩, rfl⟩
      exact ⟨⟨member, isMember, rfl⟩, there, back⟩
    · rintro ⟨⟨member, isMember, rfl⟩, there, back⟩
      exact ⟨_, ⟨⟨member, isMember, rfl⟩, there, back⟩, rfl⟩
  · cases settled

/-- An explored resolver whose cycles hold all types that their own one is entangled with. -/
structure Charted (resolver : Resolver) : Prop extends Explored resolver where
  components : ∀ entry ∈ resolver.cycles, ∀ other, other ∈ entry.2 ↔ resolver.Entangled entry.1 other

theorem exploreOnce_charted (charted : resolver.Charted) (run : exploreOnce fuel id resolver = .ok () final) :
    final.Charted := by
  have explored := exploreOnce_explored charted.toExplored run
  have learns := ((exploreOnce_consults fuel id).of_ok run).toLearns
  refine ⟨explored, fun entry member other => ?_⟩
  unfold exploreOnce at run
  rw [get_bind_run] at run
  split at run
  · rename_i new
    obtain ⟨mapped, exploring, rfl⟩ := andFinally_eq_ok.mp run
    have maps := explore_maps new exploring
    rcases List.mem_append.mp member with before | found
    · rw [maps.cycles] at before
      rw [charted.entangled_iff learns (charted.inside entry before)]
      exact charted.components entry before other
    · obtain ⟨newLinks, links, isNew⟩ := maps.links
      rw [charted.links, List.nil_append] at links
      have settles : mapped.Learns mapped.settle := { refl_of Learns mapped with }
      have unsettles : mapped.settle.Learns mapped := { refl_of Learns mapped with }
      have settled (source target : TypeId) :
          Relation.TransGen mapped.settle.ByValue source target ↔ Relation.TransGen mapped.ByValue source target :=
        ⟨byValue_path_learns unsettles, byValue_path_learns settles⟩
      obtain ⟨_, link, isLink, same⟩ := mem_foundCycles found
      obtain ⟨notBefore, visited⟩ := isNew link (links ▸ isLink)
      rw [same] at notBefore visited
      rw [mem_foundCycle_iff found, Entangled, settled, settled]
      constructor
      · rintro ⟨⟨link, isLink, rfl⟩, there, back⟩
        obtain ⟨otherNew, otherVisited⟩ := isNew link (links ▸ isLink)
        exact ⟨(linked_path_iff charted.toExplored maps otherNew visited).mp there,
          (linked_path_iff charted.toExplored maps notBefore otherVisited).mp back⟩
      · rintro ⟨there, back⟩
        have otherNew : other ∉ resolver.visited := fun before =>
          notBefore (charted.path_before maps.toLearns before back).2
        have otherVisited : other ∈ mapped.visited :=
          (explored.path_before (refl_of Learns _) visited ((settled _ _).mpr there)).2
        obtain ⟨more, sameLinks, visits, _⟩ := maps.mapped
        rw [charted.links, List.nil_append] at sameLinks
        exact ⟨sameLinks ▸ (visits other otherVisited).resolve_left otherNew,
          (linked_path_iff charted.toExplored maps otherNew visited).mpr there,
          (linked_path_iff charted.toExplored maps notBefore otherVisited).mpr back⟩
  · obtain ⟨_, rfl⟩ := EStateM.Result.ok.inj run
    exact charted.components entry member other

theorem Charted.stands (charted : resolver.Charted) (stands : resolver.Stands later) : later.Charted where
  toExplored := charted.toExplored.stands stands
  components entry member other := by
    rw [stands.cycles] at member
    rw [charted.entangled_iff stands.toLearns (charted.inside entry member)]
    exact charted.components entry member other

/-- Queries that are answered leave the resolver charted. -/
theorem charted_leadsQueries (hooks : Registry) : LeadsQueries hooks (Lasts Charted) fun _ _ => True := by
  apply leadsQueries_of_verdicts hooks
  · apply leadsVerdicts_of_judges
    · exact fun resolver later judges charted => charted.stands { judges with }
    · exact fun _ _ _ => trivial
    · exact fun fuel id => leads_of_ok fun _ _ _ run charted => exploreOnce_charted charted run
    · exact fun ids resolver charted => charted.stands { refl_of Learns resolver with
        links := rfl, trail := rfl, visited := rfl, cycles := rfl }
    · exact fun diagnostics resolver charted => charted.stands { refl_of Learns resolver with
        links := rfl, trail := rfl, visited := rfl, cycles := rfl }
  · exact fun operations resolver charted => charted.stands { refl_of Learns resolver with
      links := rfl, trail := rfl, visited := rfl, cycles := rfl }

section Spelling

theorem ByValue.directly (intact : resolver.Intact) (byValue : resolver.ByValue id other) :
    resolver.table.Has other ∧
      resolver.table.ContainsDirectly (resolver.table.tree id) (resolver.table.tree other) := by
  obtain ⟨parts, known, isPart⟩ := byValue
  exact directly_of_byValueParts intact known other isPart

/-- All that lies directly inside a type that is not judged to grow is among its parts. -/
theorem Parts.of_directly {parts : List TypeId} {part : TypeTree} (intact : resolver.Intact)
    (known : resolver.Parts id parts) (spared : ¬ resolver.Judged id true)
    (directly : resolver.table.ContainsDirectly (resolver.table.tree id) part) :
    ∃ other ∈ parts, resolver.table.tree other = part := by
  have wellFormed := intact.regular.toWellFormed
  obtain ⟨grows, verdict, ⟨rfl, _⟩ | ⟨_, type, isType, ⟨apart, _⟩ | ⟨_, slots, rfl, asked⟩⟩⟩ := known.cases
  · exact absurd verdict spared
  · have byValue := wellFormed.containsByValue_of_directly (get_eq_ok.mp isType) directly
    cases byValue.symm.trans apart
  · obtain ⟨_, _, worked, _, _, holds⟩ := TableM.constituents_works wellFormed (has_of_get? (get_eq_ok.mp isType))
    obtain ⟨rfl, rfl⟩ := EStateM.Result.ok.inj (asked.symm.trans worked)
    have isPart := directly.2
    rw [← holds.1] at isPart
    obtain ⟨slot, isSlot, rfl⟩ := List.mem_map.mp isPart
    exact ⟨slot.type, List.mem_map_of_mem isSlot, rfl⟩

/-- Where no type is judged to grow, what is known to be contained in a type visited is what
it contains. -/
theorem Explored.byValue_path_iff (explored : resolver.Explored) (intact : resolver.Intact)
    (spared : ∀ id, ¬ resolver.Judged id true) (visited : id ∈ resolver.visited) :
    Relation.TransGen resolver.ByValue id other ↔ resolver.table.Has other ∧
      Relation.TransGen resolver.table.ContainsDirectly (resolver.table.tree id) (resolver.table.tree other) := by
  constructor
  · intro path
    obtain ⟨owner, _, last⟩ := Relation.TransGen.tail'_iff.mp path
    exact ⟨(ByValue.directly intact last).1,
      path.lift resolver.table.tree fun _ _ byValue => (ByValue.directly intact byValue).2⟩
  · rintro ⟨has, path⟩
    have step {owner : TypeId} {part : TypeTree} (visited : owner ∈ resolver.visited)
        (directly : resolver.table.ContainsDirectly (resolver.table.tree owner) part) :
        ∃ other, resolver.ByValue owner other ∧ resolver.table.tree other = part := by
      obtain ⟨parts, known, _⟩ := explored.parts owner visited
      obtain ⟨other, isPart, same⟩ := known.of_directly intact (spared owner) directly
      exact ⟨other, ⟨parts, known, isPart⟩, same⟩
    have found {tree : TypeTree}
        (path : Relation.TransGen resolver.table.ContainsDirectly (resolver.table.tree id) tree) :
        ∃ other, Relation.TransGen resolver.ByValue id other ∧ resolver.table.tree other = tree := by
      induction path with
      | single directly =>
          obtain ⟨other, byValue, same⟩ := step visited directly
          exact ⟨other, .single byValue, same⟩
      | tail _ directly ih =>
          obtain ⟨owner, before, rfl⟩ := ih
          obtain ⟨other, byValue, same⟩ := step (explored.path_before (refl_of Learns _) visited before).2 directly
          exact ⟨other, before.tail byValue, same⟩
    obtain ⟨same, known, equal⟩ := found path
    obtain ⟨owner, _, last⟩ := Relation.TransGen.tail'_iff.mp known
    obtain rfl := intact.regular.toWellFormed.tree_injective (ByValue.directly intact last).1 has equal
    exact known

/-- A type visited is on a cycle exactly if it contains itself. -/
theorem Explored.isSome_cycle_iff (explored : resolver.Explored) (intact : resolver.Intact)
    (spared : ∀ id, ¬ resolver.Judged id true) (visited : id ∈ resolver.visited) :
    (resolver.cycles.lookup id).isSome = true ↔ resolver.table.ContainsItself id := by
  obtain ⟨parts, known, _⟩ := explored.parts id visited
  rw [explored.cycles id visited, explored.byValue_path_iff intact spared visited]
  exact and_iff_right (has_of_byValueParts known)

end Spelling
end Resolver
end LifecycleHooks

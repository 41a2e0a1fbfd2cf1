import LifecycleHooks.Proofs.Lifting.Confinement
import LifecycleHooks.Proofs.Lifting.Exploration

/-!
# Types that contain themselves by value

One spelling contains another directly when that is the spelling of a constituent that lies
inside its values: sequences, references, pointers and parameter modes only lead to theirs.
Whatever a resolver was asked, answered or not, every link that it follows is direct
containment, and every type that it keeps a cycle for contains itself.
-/

namespace LifecycleHooks

open Attempt ResolveM TypeTable

/-- Whether the constituents of a type lie inside its values. -/
def TypeTree.enclosesParts : TypeTree → Bool
  | .node (.wrap _) _ => false
  | _ => true

namespace TypeTable

/-- One type contains another one directly by value. -/
def ContainsDirectly (table : TypeTable) (owner part : TypeTree) : Prop :=
  owner.enclosesParts = true ∧ part ∈ table.constituentTrees owner

/-- A path of direct containment leads from a type back to it. -/
def ContainsItself (table : TypeTable) (id : TypeId) : Prop :=
  Relation.TransGen table.ContainsDirectly (table.tree id) (table.tree id)

variable {table larger : TypeTable} {id : TypeId}

theorem WellFormed.enclosesParts_tree {type : TypeDef} (wellFormed : table.WellFormed)
    (found : table.get? id = some type) : containsByValue type = true → (table.tree id).enclosesParts = true := by
  rw [wellFormed.tree_eq found]
  cases type <;> simp [containsByValue, TypeTree.enclosesParts, TypeDef.label]

/-- What a type contains directly, it contains as a type whose constituents lie inside. -/
theorem WellFormed.containsByValue_of_directly {type : TypeDef} {part : TypeTree} (wellFormed : table.WellFormed)
    (found : table.get? id = some type) (directly : table.ContainsDirectly (table.tree id) part) :
    containsByValue type = true := by
  obtain ⟨encloses, isPart⟩ := directly
  rw [wellFormed.tree_eq found] at encloses isPart
  cases type with
  | scalar | void | unknown =>
      simp [TypeDef.label, constituentTrees, declared?_eq_some.mpr ⟨found, rfl⟩] at isPart
  | typevar => cases isPart
  | wrap => cases encloses
  | _ => rfl

/-- Further types change nothing about what lies inside a type over the shapes in use. -/
theorem WellFormed.containsPath_extends (wellFormed : table.WellFormed) (extends_ : table.Extends larger)
    {owner part : TypeTree} (isOver : owner.IsOver table.shapes) :
    Relation.TransGen larger.ContainsDirectly owner part ↔ Relation.TransGen table.ContainsDirectly owner part := by
  have same {owner part : TypeTree} (isOver : owner.IsOver table.shapes) :
      larger.ContainsDirectly owner part ↔ table.ContainsDirectly owner part := by
    unfold ContainsDirectly
    rw [wellFormed.constituentTrees_isOver extends_ isOver]
  have stays {owner part : TypeTree} (isOver : owner.IsOver table.shapes) (step : table.ContainsDirectly owner part) :
      part.IsOver table.shapes := wellFormed.isOver_constituent isOver part step.2
  constructor
  · have narrows : ∀ owner part : TypeTree, owner.IsOver table.shapes → larger.ContainsDirectly owner part →
        table.ContainsDirectly owner part ∧ part.IsOver table.shapes :=
      fun owner part isOver step => ⟨(same isOver).mp step, stays isOver ((same isOver).mp step)⟩
    exact fun path => (Resolver.transGen_of_closed narrows isOver path).1
  · have widens : ∀ owner part : TypeTree, owner.IsOver table.shapes → table.ContainsDirectly owner part →
        larger.ContainsDirectly owner part ∧ part.IsOver table.shapes :=
      fun owner part isOver step => ⟨(same isOver).mpr step, stays isOver step⟩
    exact fun path => (Resolver.transGen_of_closed widens isOver path).1

theorem WellFormed.containsItself_extends (wellFormed : table.WellFormed) (extends_ : table.Extends larger)
    (has : table.Has id) : larger.ContainsItself id ↔ table.ContainsItself id := by
  unfold ContainsItself
  rw [wellFormed.tree_extends extends_ has]
  exact wellFormed.containsPath_extends extends_ (wellFormed.tree_isOver has)

end TypeTable

namespace Resolver

variable {resolver later final : Resolver} {id : TypeId} {fuel : Nat}

/-- What the resolver works out as directly contained lies inside the type. -/
theorem directly_of_byValueParts {parts : List TypeId} (intact : resolver.Intact)
    (run : byValueParts fuel id resolver = .ok parts final) :
    ∀ part ∈ parts, final.table.Has part ∧
      final.table.ContainsDirectly (final.table.tree id) (final.table.tree part) := by
  obtain ⟨grows, judged, judging, rest⟩ := bind_eq_ok.mp run
  have judges := (growsForever_judges fuel id).of_ok judging
  obtain ⟨judgedIntact, _⟩ := judges.staysIntact intact
  have wellFormed := judgedIntact.regular.toWellFormed
  have has := (has_of_growsForever judging).extends_ judges.table
  cases grows with
  | true =>
      obtain ⟨rfl, _⟩ := EStateM.Result.ok.inj rest
      simp
  | false =>
      rw [if_neg (by simp)] at rest
      obtain ⟨type, found⟩ := has.exists
      rw [bind_run_of_ok (fetch_eq_ok.mpr ⟨get_eq_ok.mpr found, rfl⟩)] at rest
      split at rest
      · rename_i byValue
        obtain ⟨slots, larger, worked, _, unfolds, holds⟩ := TableM.constituents_works wellFormed has
        rw [bind_run_of_ok (onTable_eq_ok.mpr ⟨larger, worked, rfl⟩)] at rest
        obtain ⟨rfl, rfl⟩ := EStateM.Result.ok.inj rest
        intro part member
        obtain ⟨slot, isSlot, rfl⟩ := List.mem_map.mp member
        refine ⟨holds.2 slot isSlot, ?_⟩
        change larger.ContainsDirectly (larger.tree id) (larger.tree slot.type)
        rw [wellFormed.tree_extends unfolds.extends_ has]
        refine ⟨wellFormed.enclosesParts_tree found byValue, ?_⟩
        rw [wellFormed.constituentTrees_unfolds unfolds, ← holds.1]
        exact List.mem_map_of_mem isSlot
      · obtain ⟨rfl, _⟩ := EStateM.Result.ok.inj rest
        simp

/-- An intact resolver whose links are direct containment, and whose cycles are kept for
types that contain themselves. -/
structure Truthful (resolver : Resolver) : Prop where
  intact : resolver.Intact
  links : ∀ link ∈ resolver.links, ∀ part ∈ link.2, resolver.table.Has part ∧
    resolver.table.ContainsDirectly (resolver.table.tree link.1) (resolver.table.tree part)
  cycles : ∀ entry ∈ resolver.cycles, resolver.table.Has entry.1 ∧ resolver.table.ContainsItself entry.1

/-- Further types leave the links and the cycles of a resolver true. -/
theorem Truthful.extends_ (truthful : resolver.Truthful) (intact : later.Intact)
    (extends_ : resolver.table.Extends later.table) (links : later.links = resolver.links)
    (cycles : later.cycles = resolver.cycles) : later.Truthful where
  intact := intact
  links link member part isPart := by
    have wellFormed := truthful.intact.regular.toWellFormed
    have hasLink := truthful.intact.links link (links ▸ member)
    obtain ⟨has, encloses, inside⟩ := truthful.links link (links ▸ member) part isPart
    refine ⟨has.extends_ extends_, ?_⟩
    rw [wellFormed.tree_extends extends_ hasLink, wellFormed.tree_extends extends_ has]
    refine ⟨encloses, ?_⟩
    rwa [wellFormed.constituentTrees_isOver extends_ (wellFormed.tree_isOver hasLink)]
  cycles entry member := by
    obtain ⟨has, itself⟩ := truthful.cycles entry (cycles ▸ member)
    exact ⟨has.extends_ extends_, (truthful.intact.regular.containsItself_extends extends_ has).mpr itself⟩

theorem Truthful.of_eq (truthful : resolver.Truthful) (table : later.table = resolver.table)
    (links : later.links = resolver.links) (cycles : later.cycles = resolver.cycles) : later.Truthful :=
  truthful.extends_ (staysIntact_of_eq table links cycles truthful.intact).1 (table ▸ .refl _) links cycles

theorem Judges.truthful (judges : resolver.Judges later) : Lasts Truthful resolver later := fun truthful =>
  truthful.extends_ (judges.staysIntact truthful.intact).1 judges.table judges.links judges.cycles

theorem Truthful.link {parts : List TypeId} (truthful : resolver.Truthful) (has : resolver.table.Has id)
    (directly : ∀ part ∈ parts, resolver.table.Has part ∧
      resolver.table.ContainsDirectly (resolver.table.tree id) (resolver.table.tree part)) :
    Truthful { resolver with links := resolver.links ++ [(id, parts)] } where
  intact := (link_staysIntact has parts truthful.intact).1
  links := List.forall_mem_append.mpr ⟨truthful.links, List.forall_mem_singleton.mpr directly⟩
  cycles := truthful.cycles

/-- Exploring links what is contained directly. -/
theorem explore_truthful (fuel : Nat) (id : TypeId) : (explore fuel id).Preserves (Lasts Truthful) := by
  induction fuel generalizing id with
  | zero => exact leads_throw _
  | succ fuel ih =>
      unfold explore
      apply Leads.bind
      · exact leads_modify fun _ truthful => truthful.of_eq rfl rfl rfl
      intro _
      have goesOn (parts : List TypeId) :
          (do parts.forM fun part => do
                if part ∉ (← get).visited then
                  explore fuel part
              modify fun resolver => { resolver with trail := resolver.trail.tail } :
            ResolveM Unit).Preserves (Lasts Truthful) := by
        refine (leads_forM fun part _ => leads_get.bind fun resolver => ?_).bind fun _ =>
          leads_modify fun _ truthful => truthful.of_eq rfl rfl rfl
        split
        · exact ih part
        · exact leads_pure _
      refine preserves_iff.mpr fun resolver truthful => ?_
      refine finish_bind (fun fault middle run => ?_) fun parts middle run => ?_
      · exact ((byValueParts_judges fuel id).of_error run).truthful truthful
      · have judged := ((byValueParts_judges fuel id).of_ok run).truthful truthful
        have linked := judged.link (has_of_byValueParts run) (directly_of_byValueParts truthful.intact run)
        exact (goesOn parts).finish _ linked

/-- A path of links is a path of direct containment. -/
theorem Truthful.path {other : TypeId} (truthful : resolver.Truthful)
    (path : Relation.TransGen (Linked resolver.links) id other) :
    Relation.TransGen resolver.table.ContainsDirectly (resolver.table.tree id) (resolver.table.tree other) := by
  refine path.lift resolver.table.tree fun source other linked => ?_
  cases found : resolver.links.lookup source with
  | none => simp [Linked, found] at linked
  | some targets =>
      have isTarget : other ∈ targets := by simpa [Linked, found] using linked
      exact (truthful.links _ (mem_of_lookup found) other isTarget).2

theorem Truthful.settle (truthful : resolver.Truthful) : resolver.settle.Truthful where
  intact := (settle_staysIntact resolver truthful.intact).1
  links := by simp [Resolver.settle]
  cycles entry member := by
    rcases List.mem_append.mp member with before | found
    · exact truthful.cycles entry before
    · obtain ⟨⟨id, reached⟩, inReach, settled⟩ := List.mem_filterMap.mp found
      obtain ⟨link, isLink, same⟩ := List.mem_map.mp inReach
      obtain ⟨rfl, rfl⟩ := Prod.mk.inj same
      dsimp only at settled
      split at settled
      · rename_i cyclic
        obtain rfl := Option.some.inj settled
        exact ⟨truthful.intact.links link isLink, truthful.path (mem_reachable.mp cyclic.1)⟩
      · cases settled

theorem exploreOnce_truthful (fuel : Nat) (id : TypeId) : (exploreOnce fuel id).Preserves (Lasts Truthful) := by
  refine leads_get.bind fun resolver => ?_
  split
  · exact preserves_andFinally (explore_truthful fuel id) fun _ middle stays truthful => (stays truthful).settle
  · exact leads_pure _

/-- Whatever is asked next, the links and the cycles of a resolver stay true. -/
theorem truthful_leadsQueries (hooks : Registry) : LeadsQueries hooks (Lasts Truthful) (Lasts Truthful) := by
  apply leadsQueries_of_verdicts hooks
  · apply leadsVerdicts_of_judges (fun _ _ judges => judges.truthful) (fun _ _ judges => judges.truthful)
      exploreOnce_truthful
    · exact fun _ _ truthful => truthful.of_eq rfl rfl rfl
    · exact fun _ _ truthful => truthful.of_eq rfl rfl rfl
  · exact fun _ _ truthful => truthful.of_eq rfl rfl rfl

theorem Serving.truthful {hooks : Registry} (serving : Serving hooks resolver) : resolver.Truthful :=
  serving.keeps (fun _ built => ⟨⟨built.regular, by simp, by simp⟩, by simp, by simp⟩) (truthful_leadsQueries hooks)
    fun _ _ truthful extends_ intact => truthful.extends_ intact extends_ rfl rfl

end Resolver
end LifecycleHooks

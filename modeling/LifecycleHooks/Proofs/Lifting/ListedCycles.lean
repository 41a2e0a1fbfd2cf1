import LifecycleHooks.Proofs.Lifting.FindingOrder
import LifecycleHooks.Proofs.Lifting.Components

/-!
# What a report of a cycle lists

The types that a report lists all contain each other by value, and each of them but the first
is directly contained in one that is listed before it.  Where none of them directly contains
two others of them, each contains the next one, and the last one the first.  Otherwise the
list need not be a way along containment, since a type may follow on the last one found of a
side branch.
-/

namespace LifecycleHooks

open Attempt ResolveM TypeTable Resolver

namespace TypeTable

/-- The types are different, each contains the next one directly by value, and the last one
contains the first. -/
def IsCycle (table : TypeTable) : List TypeId → Prop
  | [] => False
  | first :: rest => (first :: rest).Nodup ∧
      (first :: rest ++ [first]).IsChain fun id other => table.ContainsDirectly (table.tree id) (table.tree other)

/-- The types are different and contain each other, through types of the list only, and each but
the first one is directly contained in one before it. -/
structure ListsTogether (table : TypeTable) (members : List TypeId) : Prop where
  distinct : members.Nodup
  ordered : ∀ before id behind, members = before ++ id :: behind → before ≠ [] →
    ∃ owner ∈ before, table.ContainsDirectly (table.tree owner) (table.tree id)
  together : ∀ id ∈ members, ∀ other ∈ members,
    Relation.TransGen (fun id other => other ∈ members ∧ table.ContainsDirectly (table.tree id) (table.tree other)) id other

/-- None of the types directly contains two others of them. -/
def Unbranched (table : TypeTable) (members : List TypeId) : Prop :=
  ∀ owner ∈ members, ∀ first ∈ members, ∀ second ∈ members, first ≠ owner → second ≠ owner →
    table.ContainsDirectly (table.tree owner) (table.tree first) →
      table.ContainsDirectly (table.tree owner) (table.tree second) → first = second

section Chains

variable {Item : Type} {owns : Item → Item → Prop} {items : List Item}

/-- An item of a chain is the last one, or it owns the next one. -/
theorem last_or_owns_next {owner : Item} (chain : items.IsChain owns) (isOwner : owner ∈ items) :
    items.getLast? = some owner ∨ ∃ front next behind, items = front ++ owner :: next :: behind ∧ owns owner next := by
  obtain ⟨front, behind, rfl⟩ := List.append_of_mem isOwner
  cases behind with
  | nil => simp
  | cons next behind =>
      have fromOwner := (List.isChain_append.mp chain).2.1
      exact .inr ⟨front, next, behind, rfl, (List.isChain_cons_cons.mp fromOwner).1⟩

/-- Where each item but the first is owned by one before it, and none owns two others, each item owns
the next one. -/
theorem isChain_of_ordered (distinct : items.Nodup)
    (ordered : ∀ before item behind, items = before ++ item :: behind → before ≠ [] → ∃ owner ∈ before, owns owner item)
    (unbranched : ∀ owner ∈ items, ∀ first ∈ items, ∀ second ∈ items, first ≠ owner → second ≠ owner →
      owns owner first → owns owner second → first = second) : items.IsChain owns := by
  induction items using List.reverseRecOn with
  | nil => exact .nil
  | append_singleton items last ih =>
      obtain ⟨earlier, new⟩ : items.Nodup ∧ last ∉ items := by simpa [List.nodup_append'] using distinct
      have chain : items.IsChain owns := by
        refine ih earlier (fun before item behind cut => ordered before item (behind ++ [last]) (by simp [cut])) ?_
        exact fun owner isOwner first isFirst second isSecond =>
          unbranched owner (List.mem_append_left _ isOwner) first (List.mem_append_left _ isFirst) second
            (List.mem_append_left _ isSecond)
      refine List.isChain_append.mpr ⟨chain, List.isChain_singleton last, fun before isBefore other isLast => ?_⟩
      obtain rfl : last = other := by simpa using isLast
      obtain ⟨owner, isOwner, owned⟩ := ordered items last [] rfl (by rintro rfl; simp at isBefore)
      rcases last_or_owns_next chain isOwner with atEnd | ⟨front, next, behind, rfl, ownsNext⟩
      · obtain rfl : owner = before := Option.some.inj (atEnd.symm.trans isBefore)
        exact owned
      · have isNext : next ∈ front ++ owner :: next :: behind := by simp
        have nextApart : next ≠ owner := by
          rintro rfl
          simp [List.nodup_append'] at earlier
        have lastApart : last ≠ owner := fun same => new (same ▸ isOwner)
        have same := unbranched owner (List.mem_append_left _ isOwner) next (List.mem_append_left _ isNext) last
          (by simp) nextApart lastApart ownsNext owned
        exact absurd (same ▸ isNext) new

/-- What is reached by way of the items is owned by one of them, which is another item if it is reached
from another one. -/
theorem owner_of_path {start target : Item} (begins : start ∈ items)
    (path : Relation.TransGen (fun owner item => item ∈ items ∧ owns owner item) start target) :
    ∃ owner ∈ items, owns owner target ∧ (start ≠ target → owner ≠ target) := by
  induction path using Relation.TransGen.head_induction_on with
  | single step => exact ⟨_, begins, step.2, fun differ => differ⟩
  | @head start next step _ ih =>
      by_cases arrived : next = target
      · exact ⟨start, begins, arrived ▸ step.2, fun differ => differ⟩
      · obtain ⟨owner, isOwner, owned, differs⟩ := ih step.1
        exact ⟨owner, isOwner, owned, fun _ => differs arrived⟩

end Chains

variable {table : TypeTable} {members : List TypeId}

/-- Types that are listed together form a cycle if none directly contains two others of them. -/
theorem ListsTogether.isCycle (lists : table.ListsTogether members) (some : members ≠ [])
    (unbranched : table.Unbranched members) : table.IsCycle members := by
  obtain ⟨first, rest, rfl⟩ := List.exists_cons_of_ne_nil some
  have chain : (first :: rest).IsChain fun id other => table.ContainsDirectly (table.tree id) (table.tree other) :=
    isChain_of_ordered lists.distinct lists.ordered unbranched
  refine ⟨lists.distinct, List.isChain_append.mpr ⟨chain, List.isChain_singleton first, fun last isLast other isFirst => ?_⟩⟩
  obtain rfl : first = other := by simpa using isFirst
  have inside := List.mem_of_getLast? isLast
  obtain ⟨owner, isOwner, owned, differs⟩ := owner_of_path inside (lists.together last inside first List.mem_cons_self)
  rcases last_or_owns_next chain isOwner with atEnd | ⟨front, next, behind, cut, ownsNext⟩
  · obtain rfl : owner = last := Option.some.inj (atEnd.symm.trans isLast)
    exact owned
  · -- An owner before the end has its next type as its only other one, which is not the first.
    have distinct := lists.distinct
    rw [cut] at distinct
    have isNext : next ∈ first :: rest := by simp [cut]
    have nextApart : next ≠ owner := by
      rintro rfl
      simp [List.nodup_append'] at distinct
    have notFirst : first ≠ next := by
      rintro rfl
      cases front <;> simp_all
    have lastApart : last ≠ first := by
      rintro rfl
      cases rest with
      | nil => cases front <;> simp at cut
      | cons second rest =>
          rw [List.getLast?_cons_cons] at isLast
          exact (List.nodup_cons.mp lists.distinct).1 (List.mem_of_getLast? isLast)
    have same := unbranched owner isOwner first List.mem_cons_self next isNext (differs lastApart).symm nextApart owned ownsNext
    exact absurd same notFirst

/-- Of two types, none contains two others. -/
theorem unbranched_pair (table : TypeTable) (id other : TypeId) : table.Unbranched [id, other] := by
  intro owner isOwner first isFirst second isSecond firstApart secondApart _ _
  simp only [List.mem_pair] at isOwner isFirst isSecond
  rcases isOwner with rfl | rfl <;> simp_all

end TypeTable

namespace Resolver

variable {hooks : Registry} {resolver : Resolver} {members : List TypeId}

/-- What is listed as known containment is listed together. -/
theorem Listed.listsTogether (listed : resolver.Listed members) (intact : resolver.Intact) :
    resolver.table.ListsTogether members where
  distinct := listed.distinct
  ordered before id behind cut notFirst := by
    obtain ⟨owner, isOwner, byValue⟩ := listed.ordered before id behind cut notFirst
    exact ⟨owner, isOwner, (byValue.directly intact).2⟩
  together id isMember other isOther :=
    Relation.TransGen.mono (fun _ _ step => ⟨step.1, (step.2.directly intact).2⟩) _ _ (listed.together id isMember other isOther)

/-- A cycle that a resolver in service keeps holds its type. -/
theorem Serving.mem_own_cycle (serving : Serving hooks resolver) {entry : TypeId × List TypeId}
    (isCycle : entry ∈ resolver.cycles) : entry.1 ∈ entry.2 := by
  obtain ⟨_, _, reached⟩ := serving.reached
  obtain ⟨more, cycles, own⟩ := reached.extends_.cycles
  exact (own entry (by simpa [cycles] using isCycle)).1

/-- A resolver in service can account for its reports.  Each cycle that it reports lists different
types that contain each other through types of the list, each but the first one directly contained in
one before it.  The list is a cycle if none of its types directly contains two others of them. -/
theorem Serving.lists_cycles (serving : Serving hooks resolver) :
    (∃ reports, resolver.Booked reports) ∧ ∀ reports, resolver.Booked reports → ∀ id members,
      .cycle id members ∈ reports → id ∈ members ∧ resolver.table.ListsTogether members ∧
        (resolver.table.Unbranched members → resolver.table.IsCycle members) := by
  refine ⟨serving.accounted.2, fun reports booked id members isReport => ?_⟩
  have isCycle := booked.stand _ isReport
  have isMember := serving.mem_own_cycle isCycle
  have lists := (serving.ordered.listed _ isCycle).listsTogether serving.intact
  exact ⟨isMember, lists, lists.isCycle (List.ne_nil_of_mem isMember)⟩

/-- Where no object was judged to grow, what was reported is a cycle. -/
theorem Booked.tells_cycle {reports : List Report} (booked : resolver.Booked reports) (none : resolver.growth = [])
    (told : resolver.diagnostics ≠ []) : ∃ id members, .cycle id members ∈ reports ∧ (id, members) ∈ resolver.cycles := by
  have some : reports ≠ [] := by
    rintro rfl
    exact told (List.forall₂_nil_left_iff.mp booked.told)
  obtain ⟨report, isReport⟩ := List.exists_mem_of_ne_nil reports some
  have stands := booked.stand report isReport
  cases report with
  | growth head => simp [Report.Stands, none] at stands
  | cycle id members => exact ⟨id, members, isReport, stands⟩

/-- A hub that holds two rims by value, each of which holds the hub. -/
def hubTable : TypeTable :=
  TypeTable.after {} [.object "Hub" [] {}, .object "Left" [] {}, .object "Right" [] {},
    .define 1 { fields := [⟨"left", 2⟩, ⟨"right", 3⟩] }, .define 2 { fields := [⟨"hub", 1⟩] },
    .define 3 { fields := [⟨"hub", 1⟩] }]

theorem hubTable_built : hubTable.Built :=
  TypeTable.Built.empty.after (by decide +kernel)

/-- The resolver that was asked about the hub. -/
def hubResolver : Resolver :=
  ((Query.isUnresolvable 1).ask {} 9).finish { table := hubTable }

/-- A report of the hub lists the second rim after the first, which does not contain it. -/
theorem not_every_listed_cycle_is_cycle :
    ¬ ∀ (hooks : Registry) (resolver : Resolver), Serving hooks resolver → ∀ reports, resolver.Booked reports →
      ∀ id members, .cycle id members ∈ reports → resolver.table.IsCycle members := by
  intro always
  have serving : Serving {} hubResolver := (Serving.start hubTable_built).asked 9 (.isUnresolvable 1)
  obtain ⟨reports, booked⟩ := serving.accounted.2
  have kept : hubResolver.growth = [] ∧ (∀ entry ∈ hubResolver.cycles, entry.2 = [1, 2, 3]) ∧
      hubResolver.diagnostics ≠ [] := by decide +kernel
  have spelled : hubResolver.table.tree 2 = .node (.named 2) [] ∧ hubResolver.table.tree 3 = .node (.named 3) [] ∧
      hubResolver.table.constituentTrees (.node (.named 2) []) = [.node (.named 1) []] := by
    with_unfolding_all exact ⟨rfl, rfl, rfl⟩
  obtain ⟨id, members, isReport, isCycle⟩ := booked.tells_cycle kept.1 kept.2.2
  obtain rfl : members = [1, 2, 3] := kept.2.1 _ isCycle
  obtain ⟨_, chain⟩ := always {} hubResolver serving reports booked id _ isReport
  have contains : hubResolver.table.ContainsDirectly (hubResolver.table.tree 2) (hubResolver.table.tree 3) := by
    simpa using (List.isChain_cons_cons.mp (List.isChain_cons_cons.mp chain).2).1
  have isPart := contains.2
  rw [spelled.1, spelled.2.1, spelled.2.2] at isPart
  simp at isPart

/-- Two types that hold each other. -/
def facingTable : TypeTable :=
  TypeTable.after {} [.object "First" [] {}, .object "Second" [] {}, .define 1 { fields := [⟨"second", 2⟩] },
    .define 2 { fields := [⟨"first", 1⟩] }]

theorem facingTable_built : facingTable.Built :=
  TypeTable.Built.empty.after (by decide +kernel)

/-- The resolver that was asked about the second of them. -/
def facingResolver : Resolver :=
  ((Query.isUnresolvable 2).ask {} 9).finish { table := facingTable }

theorem facing_types_form_cycle : ∃ reports id, facingResolver.Booked reports ∧ .cycle id [2, 1] ∈ reports ∧
    facingResolver.table.IsCycle [2, 1] := by
  have serving : Serving {} facingResolver := (Serving.start facingTable_built).asked 9 (.isUnresolvable 2)
  obtain ⟨⟨reports, booked⟩, lists⟩ := serving.lists_cycles
  have kept : facingResolver.growth = [] ∧ (∀ entry ∈ facingResolver.cycles, entry.2 = [2, 1]) ∧
      facingResolver.diagnostics ≠ [] := by decide +kernel
  obtain ⟨id, members, isReport, isCycle⟩ := booked.tells_cycle kept.1 kept.2.2
  obtain rfl : members = [2, 1] := kept.2.1 _ isCycle
  obtain ⟨_, _, cyclic⟩ := lists reports booked id _ isReport
  exact ⟨reports, id, booked, isReport, cyclic (unbranched_pair _ 2 1)⟩

end Resolver
end LifecycleHooks

import LifecycleHooks.Proofs.Lifting.Reports
import LifecycleHooks.Proofs.Lifting.SelfContainment

/-!
# The order in which an exploration finds types

An exploration links each type before the types that are found behind it.  Of the types of
one cycle the one found first is therefore followed by all others, and each of these is a
part of one that was found earlier.  A cycle is reported in this order, which leads from
each type to the next one only where no type of the cycle has two others among its parts.
-/

namespace LifecycleHooks

open Attempt ResolveM TypeTable

/-- A depth-first visit of some types, one after the other, with the links that it adds and
the types that are visited after it.  The visit of an open type may have ended before its link
was known, or before all of its parts were visited. -/
inductive VisitedAlong (isOpen : TypeId → Prop) :
    (seen roots : List TypeId) → (links : List (TypeId × List TypeId)) → (later : List TypeId) → Prop
  | done {seen : List TypeId} : VisitedAlong isOpen seen [] [] seen
  | known {seen roots later : List TypeId} {links : List (TypeId × List TypeId)} {id : TypeId}
      (before : id ∈ seen) (others : VisitedAlong isOpen seen roots links later) :
      VisitedAlong isOpen seen (id :: roots) links later
  | unlinked {seen roots later : List TypeId} {links : List (TypeId × List TypeId)} {id : TypeId}
      (opened : isOpen id) (others : VisitedAlong isOpen (id :: seen) roots links later) :
      VisitedAlong isOpen seen (id :: roots) links later
  | linked {seen roots parts followed middle later : List TypeId} {inner rest : List (TypeId × List TypeId)}
      {id : TypeId} (new : id ∉ seen) (inParts : followed ⊆ parts) (whole : ¬ isOpen id → followed = parts)
      (behind : VisitedAlong isOpen (id :: seen) followed inner middle)
      (others : VisitedAlong isOpen middle roots rest later) :
      VisitedAlong isOpen seen (id :: roots) ((id, parts) :: (inner ++ rest)) later

/-- Each of two types is reached from the other one. -/
def MutuallyOwned (owns : TypeId → TypeId → Prop) (id other : TypeId) : Prop :=
  Relation.ReflTransGen owns id other ∧ Relation.ReflTransGen owns other id

theorem cut_cons {Item : Type} {first item : Item} {second before behind : List Item}
    (cut : first :: second = before ++ item :: behind) :
    (before = [] ∧ first = item) ∨ ∃ more, before = first :: more ∧ second = more ++ item :: behind := by
  cases before with
  | nil => exact .inl ⟨rfl, (List.cons.inj cut).1⟩
  | cons other more => exact .inr ⟨more, by rw [(List.cons.inj cut).1], (List.cons.inj cut).2⟩

theorem cut_append {Item : Type} {first second before behind : List Item} {item : Item}
    (cut : first ++ second = before ++ item :: behind) :
    (∃ more, first = before ++ item :: more) ∨ ∃ more, before = first ++ more ∧ second = more ++ item :: behind := by
  rcases List.append_eq_append_iff.mp cut with ⟨more, rfl, inSecond⟩ | ⟨more, rfl, inFirst⟩
  · exact .inr ⟨more, rfl, inSecond⟩
  · rcases List.cons_eq_append_iff.mp inFirst with ⟨rfl, rfl⟩ | ⟨more, rfl, _⟩
    · exact .inr ⟨[], by simp, rfl⟩
    · exact .inl ⟨more, rfl⟩

/-- An item kept of a mapped list stands where its origin stands. -/
theorem cut_filter_map {Origin Item : Type} {origins : List Origin} {image : Origin → Item} {test : Item → Bool}
    {before behind : List Item} {item : Item} (cut : (origins.map image).filter test = before ++ item :: behind) :
    ∃ earlier origin later, origins = earlier ++ origin :: later ∧ image origin = item ∧ test item = true ∧
      before = (earlier.map image).filter test := by
  obtain ⟨early, _, listed, rfl, rest⟩ := List.filter_eq_append_iff.mp cut
  obtain ⟨passed, _, rfl, skipped, kept, _⟩ := List.filter_eq_cons_iff.mp rest
  obtain ⟨first, _, rfl, rfl, remaining⟩ := List.map_eq_append_iff.mp listed
  obtain ⟨second, _, rfl, rfl, ends⟩ := List.map_eq_append_iff.mp remaining
  obtain ⟨origin, later, rfl, rfl, _⟩ := List.map_eq_cons_iff.mp ends
  have noneSkipped : (second.map image).filter test = [] := List.filter_eq_nil_iff.mpr skipped
  exact ⟨first ++ second, origin, later, (List.append_assoc _ _ _).symm, rfl, kept, by simp [noneSkipped]⟩

/-- A path that leads back to where it comes from stays within one component. -/
theorem transGen_within {owns : TypeId → TypeId → Prop} {center id other : TypeId}
    (fromCenter : Relation.ReflTransGen owns center id) (path : Relation.TransGen owns id other)
    (back : Relation.ReflTransGen owns other center) :
    Relation.TransGen (fun source target => MutuallyOwned owns center target ∧ owns source target) id other := by
  induction path using Relation.TransGen.head_induction_on with
  | single last => exact .single ⟨⟨fromCenter.tail last, back⟩, last⟩
  | head step path ih =>
      have fromNext := fromCenter.tail step
      exact .head ⟨⟨fromNext, path.to_reflTransGen.trans back⟩, step⟩ (ih fromNext)

namespace VisitedAlong

variable {isOpen : TypeId → Prop} {seen roots later : List TypeId} {links : List (TypeId × List TypeId)}

theorem seen_subset (visits : VisitedAlong isOpen seen roots links later) : seen ⊆ later := by
  induction visits with
  | done => exact List.Subset.refl _
  | known _ _ ih => exact ih
  | unlinked _ _ ih => exact fun _ member => ih (List.mem_cons_of_mem _ member)
  | linked _ _ _ _ _ inner rest => exact fun _ member => rest (inner (List.mem_cons_of_mem _ member))

theorem roots_subset (visits : VisitedAlong isOpen seen roots links later) : roots ⊆ later := by
  induction visits with
  | done => exact List.nil_subset _
  | known before others ih => exact List.cons_subset.mpr ⟨others.seen_subset before, ih⟩
  | unlinked _ others ih => exact List.cons_subset.mpr ⟨others.seen_subset List.mem_cons_self, ih⟩
  | linked _ _ _ behind others _ rest =>
      exact List.cons_subset.mpr ⟨others.seen_subset (behind.seen_subset List.mem_cons_self), rest⟩

theorem mem_later (visits : VisitedAlong isOpen seen roots links later) {id : TypeId} (member : id ∈ later) :
    id ∈ seen ∨ isOpen id ∨ id ∈ links.map Prod.fst := by
  induction visits with
  | done => exact .inl member
  | known _ _ ih => exact ih member
  | unlinked opened _ ih =>
      rcases ih member with inside | behind
      · rcases List.mem_cons.mp inside with rfl | before
        · exact .inr (.inl opened)
        · exact .inl before
      · exact .inr behind
  | linked _ _ _ _ _ inner rest =>
      simp only [List.map_cons, List.map_append, List.mem_cons, List.mem_append] at inner ⊢
      rcases rest member with inMiddle | rest
      · rcases inner inMiddle with (rfl | before) | inner
        · exact .inr (.inr (.inl rfl))
        · exact .inl before
        · exact .inr (inner.imp_right fun inner => .inr (.inl inner))
      · exact .inr (rest.imp_right fun rest => .inr (.inr rest))

/-- One visit after another one. -/
theorem append {others last : List TypeId} {more : List (TypeId × List TypeId)}
    (first : VisitedAlong isOpen seen roots links later) (rest : VisitedAlong isOpen later others more last) :
    VisitedAlong isOpen seen (roots ++ others) (links ++ more) last := by
  induction first with
  | done => exact rest
  | known before _ ih => exact .known before (ih rest)
  | unlinked opened _ ih => exact .unlinked opened (ih rest)
  | linked new inParts whole behind _ _ ih =>
      rw [List.cons_append, List.cons_append, List.append_assoc]
      exact .linked new inParts whole behind (ih rest)

theorem links_subset (visits : VisitedAlong isOpen seen roots links later) : links.map Prod.fst ⊆ later := by
  induction visits with
  | done => exact List.nil_subset _
  | known _ _ ih | unlinked _ _ ih => exact ih
  | linked _ _ _ behind others inner rest =>
      rw [List.map_cons, List.map_append]
      refine List.cons_subset.mpr ⟨others.seen_subset (behind.seen_subset List.mem_cons_self), ?_⟩
      exact List.append_subset.mpr ⟨fun _ member => others.seen_subset (inner member), rest⟩

/-- Only types not seen before are linked. -/
theorem linked_new (visits : VisitedAlong isOpen seen roots links later) : List.Disjoint seen (links.map Prod.fst) := by
  induction visits with
  | done => exact List.disjoint_nil_right _
  | known _ _ ih => exact ih
  | unlinked _ _ ih => exact fun _ before => ih (List.mem_cons_of_mem _ before)
  | linked new _ _ behind _ inner rest =>
      rw [List.map_cons, List.map_append]
      refine List.disjoint_cons_right.mpr ⟨new, List.disjoint_append_right.mpr ⟨?_, ?_⟩⟩
      · exact fun _ before => inner (List.mem_cons_of_mem _ before)
      · exact fun _ before => rest (behind.seen_subset (List.mem_cons_of_mem _ before))

/-- No type is linked twice. -/
theorem nodup (visits : VisitedAlong isOpen seen roots links later) : (links.map Prod.fst).Nodup := by
  induction visits with
  | done => exact List.nodup_nil
  | known _ _ ih | unlinked _ _ ih => exact ih
  | linked _ _ _ behind others inner rest =>
      rw [List.map_cons, List.map_append]
      refine List.nodup_cons.mpr ⟨?_, List.nodup_append'.mpr ⟨inner, rest, ?_⟩⟩
      · rw [List.mem_append, not_or]
        exact ⟨behind.linked_new List.mem_cons_self,
          others.linked_new (behind.seen_subset List.mem_cons_self)⟩
      · exact fun _ inside => others.linked_new (behind.links_subset inside)

/-- The parts of a type that is not open are visited with it. -/
theorem closed (visits : VisitedAlong isOpen seen roots links later) :
    ∀ link ∈ links, ¬ isOpen link.1 → link.2 ⊆ later := by
  induction visits with
  | done => simp
  | known _ _ ih | unlinked _ _ ih => exact ih
  | @linked _ _ parts _ _ _ _ _ id _ _ whole behind others inner rest =>
      intro link member finished
      rcases List.mem_cons.mp member with rfl | member
      · exact whole finished ▸ fun _ isPart => others.seen_subset (behind.roots_subset isPart)
      · rcases List.mem_append.mp member with inside | after
        · exact fun _ isPart => others.seen_subset (inner link inside finished isPart)
        · exact rest link after finished

/-- Each type is linked because it is to be visited or because it is a part of one linked before. -/
theorem root_or_part (visits : VisitedAlong isOpen seen roots links later)
    {before behind : List (TypeId × List TypeId)} {link : TypeId × List TypeId} (cut : links = before ++ link :: behind) :
    link.1 ∈ roots ∨ ∃ owner ∈ before, link.1 ∈ owner.2 := by
  induction visits generalizing before behind with
  | done => simp at cut
  | known _ _ ih | unlinked _ _ ih => exact (ih cut).imp_left (List.mem_cons_of_mem _)
  | @linked _ _ parts _ _ _ _ _ id _ inParts _ _ _ inner rest =>
      rcases cut_cons cut with ⟨rfl, rfl⟩ | ⟨before, rfl, inInnerOrRest⟩
      · exact .inl List.mem_cons_self
      · rcases cut_append inInnerOrRest with ⟨more, inInner⟩ | ⟨more, rfl, inRest⟩
        · rcases inner inInner with isPart | ⟨owner, isOwner, isPart⟩
          · exact .inr ⟨(id, parts), List.mem_cons_self, inParts isPart⟩
          · exact .inr ⟨owner, List.mem_cons_of_mem _ isOwner, isPart⟩
        · rcases rest inRest with isRoot | ⟨owner, isOwner, isPart⟩
          · exact .inl (List.mem_cons_of_mem _ isRoot)
          · exact .inr ⟨owner, List.mem_cons_of_mem _ (List.mem_append_right _ isOwner), isPart⟩

section Components

variable {owns : TypeId → TypeId → Prop}

/-- Each linked type is reached from one that was to be visited. -/
theorem reached (visits : VisitedAlong isOpen seen roots links later)
    (agrees : ∀ link ∈ links, ∀ part ∈ link.2, owns link.1 part) :
    ∀ link ∈ links, ∃ root ∈ roots, Relation.ReflTransGen owns root link.1 := by
  induction visits with
  | done => simp
  | known _ _ ih | unlinked _ _ ih =>
      intro link isLink
      obtain ⟨root, isRoot, path⟩ := ih agrees link isLink
      exact ⟨root, List.mem_cons_of_mem _ isRoot, path⟩
  | linked _ inParts _ _ _ inner rest =>
      simp only [List.forall_mem_cons, List.forall_mem_append] at agrees ⊢
      refine ⟨⟨_, List.mem_cons_self, .refl⟩, fun link isLink => ?_, fun link isLink => ?_⟩
      · obtain ⟨root, isRoot, path⟩ := inner agrees.2.1 link isLink
        exact ⟨_, List.mem_cons_self, .head (agrees.1 root (inParts isRoot)) path⟩
      · obtain ⟨root, isRoot, path⟩ := rest agrees.2.2 link isLink
        exact ⟨root, List.mem_cons_of_mem _ isRoot, path⟩

/-- A visited type outside of a component leaves the component fresh. -/
theorem fresh_cons {center id : TypeId} (fresh : ∀ id, MutuallyOwned owns center id → id ∉ seen ∧ ¬ isOpen id)
    (apart : ¬ MutuallyOwned owns center id) :
    ∀ other, MutuallyOwned owns center other → other ∉ id :: seen ∧ ¬ isOpen other := fun other member =>
  ⟨List.not_mem_cons_of_ne_of_not_mem (fun same => apart (same ▸ member)) (fresh other member).1, (fresh other member).2⟩

/-- A component none of whose members was seen or is left open is linked as a whole. -/
theorem component_linked (visits : VisitedAlong isOpen seen roots links later) {center id other : TypeId}
    (agrees : ∀ link ∈ links, ∀ part, owns link.1 part → part ∈ link.2)
    (fresh : ∀ id, MutuallyOwned owns center id → id ∉ seen ∧ ¬ isOpen id)
    (isLinked : id ∈ links.map Prod.fst) (isMember : MutuallyOwned owns center id)
    (path : Relation.ReflTransGen owns id other) (back : Relation.ReflTransGen owns other center) :
    other ∈ links.map Prod.fst := by
  induction path using Relation.ReflTransGen.head_induction_on with
  | refl => exact isLinked
  | @head id next step path ih =>
      have nextMember : MutuallyOwned owns center next := ⟨isMember.1.tail step, path.trans back⟩
      obtain ⟨link, isLink, rfl⟩ := List.mem_map.mp isLinked
      have visited := visits.closed link isLink (fresh _ isMember).2 (agrees link isLink next step)
      rcases visits.mem_later visited with before | opened | isLinked
      · exact absurd before (fresh _ nextMember).1
      · exact absurd opened (fresh _ nextMember).2
      · exact ih isLinked nextMember

/-- A member of a component that is linked behind another member is a part of that one, or of a
member linked between them. -/
theorem part_behind_member (visits : VisitedAlong isOpen seen roots links later) {center id : TypeId}
    (agrees : ∀ link ∈ links, ∀ part ∈ link.2, owns link.1 part) (ownsRoots : ∀ root ∈ roots, owns id root)
    (root : MutuallyOwned owns center id) {before behind : List (TypeId × List TypeId)} {link : TypeId × List TypeId}
    (cut : links = before ++ link :: behind) (isMember : MutuallyOwned owns center link.1) :
    link.1 ∈ roots ∨ ∃ owner ∈ before, MutuallyOwned owns center owner.1 ∧ link.1 ∈ owner.2 := by
  rcases visits.root_or_part cut with isRoot | ⟨owner, isOwner, isPart⟩
  · exact .inl isRoot
  · have isLink : owner ∈ links := by simp [cut, isOwner]
    obtain ⟨first, isRoot, path⟩ := visits.reached agrees owner isLink
    have fromCenter : Relation.ReflTransGen owns center owner.1 := root.1.trans (.head (ownsRoots first isRoot) path)
    have toCenter : Relation.ReflTransGen owns owner.1 center := .head (agrees owner isLink _ isPart) isMember.2
    exact .inr ⟨owner, isOwner, ⟨fromCenter, toCenter⟩, isPart⟩

/-- A visit that leaves out one member of such a component links none of its members. -/
theorem not_linked_of_left_out (visits : VisitedAlong isOpen seen roots links later) {center id other : TypeId}
    (agrees : ∀ link ∈ links, ∀ part, owns link.1 part → part ∈ link.2)
    (fresh : ∀ id, MutuallyOwned owns center id → id ∉ seen ∧ ¬ isOpen id)
    (leftOut : other ∉ later) (isOther : MutuallyOwned owns center other) (isMember : MutuallyOwned owns center id) :
    id ∉ links.map Prod.fst := fun isLinked =>
  leftOut (visits.links_subset
    (visits.component_linked agrees fresh isLinked isMember (isMember.2.trans isOther.1) isOther.2))

/-- Of a component none of whose members was seen or is left open, each member that is not the
first one linked is a part of a member linked before. -/
theorem part_of_member (visits : VisitedAlong isOpen seen roots links later) {center : TypeId}
    (agrees : ∀ link ∈ links, ∀ part, owns link.1 part ↔ part ∈ link.2)
    (fresh : ∀ id, MutuallyOwned owns center id → id ∉ seen ∧ ¬ isOpen id)
    {before behind : List (TypeId × List TypeId)} {link : TypeId × List TypeId} (cut : links = before ++ link :: behind)
    (isMember : MutuallyOwned owns center link.1) (notFirst : ∃ first ∈ before, MutuallyOwned owns center first.1) :
    ∃ owner ∈ before, MutuallyOwned owns center owner.1 ∧ link.1 ∈ owner.2 := by
  induction visits generalizing before behind with
  | done => simp at cut
  | known _ _ ih => exact ih agrees fresh cut notFirst
  | unlinked opened _ ih => exact ih agrees (fresh_cons fresh fun member => (fresh _ member).2 opened) cut notFirst
  | @linked seen _ parts followed middle _ inner rest id new inParts whole visitsInner visitsRest ihInner ihRest =>
      obtain ⟨here, agreesInner, agreesRest⟩ : (∀ part, owns id part ↔ part ∈ parts) ∧
          (∀ link ∈ inner, ∀ part, owns link.1 part ↔ part ∈ link.2) ∧
          ∀ link ∈ rest, ∀ part, owns link.1 part ↔ part ∈ link.2 := by
        simpa only [List.forall_mem_cons, List.forall_mem_append] using agrees
      obtain ⟨first, isBefore, firstMember⟩ := notFirst
      rcases cut_cons cut with ⟨rfl, _⟩ | ⟨before, rfl, inInnerOrRest⟩
      · simp at isBefore
      rcases cut_append inInnerOrRest with ⟨more, inInner⟩ | ⟨more, rfl, inRest⟩
      · by_cases root : MutuallyOwned owns center id
        · rcases visitsInner.part_behind_member (fun link isLink part => (agreesInner link isLink part).mpr)
            (fun first isFollowed => (here first).mpr (inParts isFollowed)) root inInner isMember with
            isFollowed | ⟨owner, isOwner, owned⟩
          · exact ⟨(id, parts), List.mem_cons_self, root, inParts isFollowed⟩
          · exact ⟨owner, List.mem_cons_of_mem _ isOwner, owned⟩
        · have inBefore : first ∈ before :=
            (List.mem_cons.mp isBefore).resolve_left (by rintro rfl; exact root firstMember)
          obtain ⟨owner, isOwner, owned⟩ := ihInner agreesInner (fresh_cons fresh root) inInner ⟨first, inBefore, firstMember⟩
          exact ⟨owner, List.mem_cons_of_mem _ isOwner, owned⟩
      · -- The whole component is linked by the rest, since the visit of the root leaves out one of its members.
        have visitsRoot : VisitedAlong isOpen seen [id] ((id, parts) :: (inner ++ [])) middle :=
          .linked new inParts whole visitsInner .done
        have agreesRoot : ∀ link ∈ (id, parts) :: (inner ++ []), ∀ part, owns link.1 part → part ∈ link.2 := by
          simp only [List.append_nil, List.forall_mem_cons]
          exact ⟨fun part => (here part).mp, fun link isLink part => (agreesInner link isLink part).mp⟩
        have leftOut : link.1 ∉ middle := fun inside => visitsRest.linked_new inside (by simp [inRest])
        have notLinked {other : TypeId} (member : MutuallyOwned owns center other) : other ∉ id :: inner.map Prod.fst := by
          simpa using visitsRoot.not_linked_of_left_out agreesRoot fresh leftOut isMember member
        have inMore : first ∈ more := by
          rw [← List.cons_append, List.mem_append] at isBefore
          exact isBefore.resolve_left fun inRoot => notLinked firstMember (List.mem_map_of_mem inRoot)
        have freshRest (other : TypeId) (member : MutuallyOwned owns center other) :
            other ∉ middle ∧ ¬ isOpen other := by
          refine ⟨fun inside => ?_, (fresh other member).2⟩
          rcases visitsRoot.mem_later inside with before | opened | isLinked
          · exact (fresh other member).1 before
          · exact (fresh other member).2 opened
          · exact notLinked member (by simpa using isLinked)
        obtain ⟨owner, isOwner, owned⟩ := ihRest agreesRest freshRest inRest ⟨first, inMore, firstMember⟩
        exact ⟨owner, List.mem_cons_of_mem _ (List.mem_append_right _ isOwner), owned⟩

end Components
end VisitedAlong

theorem Linked.isLinked {links : List (TypeId × List TypeId)} {id other : TypeId} (linked : Linked links id other) :
    id ∈ links.map Prod.fst := by
  cases found : links.lookup id with
  | none => simp [Linked, found] at linked
  | some targets => exact List.mem_map_of_mem (mem_of_lookup found)

theorem linked_iff {links : List (TypeId × List TypeId)} {link : TypeId × List TypeId} {part : TypeId}
    (distinct : (links.map Prod.fst).Nodup) (isLink : link ∈ links) : Linked links link.1 part ↔ part ∈ link.2 := by
  simp [Linked, lookup_of_mem distinct isLink]

namespace Resolver

variable {resolver middle later final : Resolver} {id : TypeId} {fuel : Nat} {isOpen : TypeId → Prop}

/-- A resolver that went on with a visit of some types, whose links are known parts. -/
structure Went (isOpen : TypeId → Prop) (roots : List TypeId) (resolver later : Resolver) : Prop
    extends Learns resolver later where
  visits : ∃ links, later.links = resolver.links ++ links ∧ (∀ link ∈ links, later.Parts link.1 link.2) ∧
    VisitedAlong isOpen resolver.visited roots links later.visited

theorem Went.none (learns : resolver.Learns later) (links : later.links = resolver.links)
    (visited : later.visited = resolver.visited) : Went isOpen [] resolver later :=
  ⟨learns, [], by simp [links], by simp, visited ▸ .done⟩

theorem Went.append {roots others : List TypeId} (first : Went isOpen roots resolver middle)
    (rest : Went isOpen others middle later) : Went isOpen (roots ++ others) resolver later := by
  obtain ⟨links, sameLinks, known, visits⟩ := first.visits
  obtain ⟨more, moreLinks, moreKnown, moreVisits⟩ := rest.visits
  refine ⟨trans_of Learns first.toLearns rest.toLearns, links ++ more, by simp [moreLinks, sameLinks],
    fun link member => ?_, visits.append moreVisits⟩
  rcases List.mem_append.mp member with before | after
  · exact (known link before).learns rest.toLearns
  · exact moreKnown link after

/-- A computation visits all the given types if it succeeds, and some of them if it fails. -/
structure GoesAlong {Result : Type} (roots : List TypeId) (action : ResolveM Result) (resolver : Resolver) : Prop where
  succeeds : ∀ result final, action resolver = .ok result final →
    final.trail = resolver.trail ∧ ∀ isOpen, Went isOpen roots resolver final
  fails : ∀ fault final, action resolver = .error fault final →
    resolver.trail ⊆ final.trail ∧ ∃ followed ⊆ roots, Went (· ∈ final.trail) followed resolver final

theorem goesAlong_nothing {Result : Type} (result : Result) (resolver : Resolver) :
    GoesAlong [] (pure result : ResolveM Result) resolver where
  succeeds _ _ run := by
    obtain ⟨_, rfl⟩ := EStateM.Result.ok.inj run
    exact ⟨rfl, fun _ => .none (refl_of Learns resolver) rfl rfl⟩
  fails _ _ run := by cases run

theorem goesAlong_known {Result : Type} (result : Result) (known : id ∈ resolver.visited) :
    GoesAlong [id] (pure result : ResolveM Result) resolver where
  succeeds _ _ run := by
    obtain ⟨_, rfl⟩ := EStateM.Result.ok.inj run
    exact ⟨rfl, fun _ => ⟨refl_of Learns resolver, [], by simp, by simp, .known known .done⟩⟩
  fails _ _ run := by cases run

theorem goesAlong_forM {action : TypeId → ResolveM PUnit}
    (each : ∀ part resolver, GoesAlong [part] (action part) resolver) (parts : List TypeId) (resolver : Resolver) :
    GoesAlong parts (parts.forM action) resolver := by
  induction parts generalizing resolver with
  | nil => exact goesAlong_nothing _ resolver
  | cons part parts ih =>
      constructor
      case succeeds =>
        intro _ final run
        obtain ⟨_, middle, acted, rest⟩ := bind_eq_ok.mp run
        obtain ⟨trail, went⟩ := (each part resolver).succeeds _ _ acted
        obtain ⟨restTrail, restWent⟩ := (ih middle).succeeds _ _ rest
        exact ⟨restTrail.trans trail, fun isOpen => (went isOpen).append (restWent isOpen)⟩
      case fails =>
        intro fault final run
        rcases bind_eq_error.mp run with failed | ⟨_, middle, acted, rest⟩
        · obtain ⟨trail, followed, inside, went⟩ := (each part resolver).fails _ _ failed
          exact ⟨trail, followed, List.Subset.trans inside (by simp), went⟩
        · obtain ⟨trail, went⟩ := (each part resolver).succeeds _ _ acted
          obtain ⟨restTrail, followed, inside, restWent⟩ := (ih middle).fails _ _ rest
          exact ⟨trail ▸ restTrail, part :: followed, List.cons_subset_cons _ inside, (went _).append restWent⟩

/-- A type whose parts are known is linked, and then these are visited. -/
theorem Went.link {parts followed : List TypeId} (new : id ∉ resolver.visited)
    (begins : Learns resolver middle) (visited : middle.visited = id :: resolver.visited)
    (links : middle.links = resolver.links ++ [(id, parts)]) (known : middle.Parts id parts)
    (inParts : followed ⊆ parts) (whole : ¬ isOpen id → followed = parts) (went : Went isOpen followed middle later) :
    Went isOpen [id] resolver later := by
  obtain ⟨inner, innerLinks, innerKnown, visits⟩ := went.visits
  refine ⟨trans_of Learns begins went.toLearns, (id, parts) :: (inner ++ []), ?_, fun link member => ?_, ?_⟩
  · simp [innerLinks, links]
  · rcases List.mem_cons.mp member with rfl | inside
    · exact known.learns went.toLearns
    · exact innerKnown link (by simpa using inside)
  · exact .linked new inParts whole (visited ▸ visits) .done

/-- An action that visits a type need only do so where the type is not visited yet. -/
theorem goesAlong_unlessVisited {action : ResolveM Unit}
    (visits : id ∉ resolver.visited → GoesAlong [id] action resolver) :
    GoesAlong [id] (do if id ∉ (← get).visited then action : ResolveM Unit) resolver := by
  by_cases visited : id ∈ resolver.visited
  · have known := goesAlong_known () visited
    constructor <;> intro _ final run <;> rw [get_bind_run, if_neg (not_not.mpr visited)] at run
    · exact known.succeeds _ _ run
    · exact known.fails _ _ run
  · constructor <;> intro _ final run <;> rw [get_bind_run, if_pos visited] at run
    · exact (visits visited).succeeds _ _ run
    · exact (visits visited).fails _ _ run

/-- An exploration that knows the parts of its type links it, and goes on with visits of these. -/
theorem Went.of_byValueParts {worked : Resolver} {parts followed : List TypeId} (new : id ∉ resolver.visited)
    (working : byValueParts fuel id { resolver with visited := id :: resolver.visited, trail := id :: resolver.trail } =
      .ok parts worked)
    (inParts : followed ⊆ parts) (whole : ¬ isOpen id → followed = parts)
    (went : Went isOpen followed { worked with links := worked.links ++ [(id, parts)] } later) :
    Went isOpen [id] resolver later := by
  have judges := (byValueParts_judges fuel id).of_ok working
  have begins : resolver.Learns
      { resolver with visited := id :: resolver.visited, trail := id :: resolver.trail } := { refl_of Learns resolver with }
  have links : worked.Learns { worked with links := worked.links ++ [(id, parts)] } := { refl_of Learns worked with }
  refine .link new (trans_of Learns begins (trans_of Learns judges.toLearns links)) judges.visited ?_
    (parts_of_run working links) inParts whole went
  change worked.links ++ _ = _
  rw [judges.links]

/-- An exploration visits depth first. -/
theorem explore_goesAlong (fuel : Nat) (id : TypeId) (resolver : Resolver) (new : id ∉ resolver.visited) :
    GoesAlong [id] (explore fuel id) resolver := by
  induction fuel generalizing id resolver with
  | zero =>
      refine ⟨fun _ _ run => (by cases run), fun fault final run => ?_⟩
      obtain ⟨_, rfl⟩ := EStateM.Result.error.inj run
      exact ⟨List.Subset.refl _, [], List.nil_subset _, .none (refl_of Learns resolver) rfl rfl⟩
  | succ fuel ih =>
      have visitsParts := goesAlong_forM fun part resolver => goesAlong_unlessVisited (ih part resolver)
      constructor
      case succeeds =>
        intro _ final run
        unfold explore at run
        rw [modify_bind_run] at run
        obtain ⟨parts, worked, working, run⟩ := bind_eq_ok.mp run
        rw [modify_bind_run] at run
        obtain ⟨_, later, visiting, run⟩ := bind_eq_ok.mp run
        obtain ⟨_, rfl⟩ := EStateM.Result.ok.inj run
        have workedTrail := ((byValueParts_judges fuel id).of_ok working).trail
        obtain ⟨trail, wentParts⟩ := (visitsParts parts _).succeeds _ _ visiting
        refine ⟨by simp [trail, workedTrail], fun isOpen => ?_⟩
        exact (Went.of_byValueParts new working (List.Subset.refl _) (fun _ => rfl) (wentParts isOpen)).append
          (.none { refl_of Learns later with } rfl rfl)
      case fails =>
        intro fault final run
        unfold explore at run
        rw [modify_bind_run] at run
        rcases bind_eq_error.mp run with failed | ⟨parts, worked, working, run⟩
        · have begins : resolver.Learns
              { resolver with visited := id :: resolver.visited, trail := id :: resolver.trail } :=
            { refl_of Learns resolver with }
          have judges := (byValueParts_judges fuel id).of_error failed
          refine ⟨judges.trail ▸ List.subset_cons_self _ _, [id], List.Subset.refl _,
            trans_of Learns begins judges.toLearns, [], by simp [judges.links], by simp, ?_⟩
          rw [judges.visited]
          exact .unlinked (judges.trail ▸ List.mem_cons_self) .done
        · rw [modify_bind_run] at run
          rcases bind_eq_error.mp run with failed | ⟨_, later, visiting, run⟩
          · have workedTrail : worked.trail = id :: resolver.trail := ((byValueParts_judges fuel id).of_ok working).trail
            obtain ⟨trail, followed, inside, wentParts⟩ := (visitsParts parts _).fails _ _ failed
            have opened : id :: resolver.trail ⊆ final.trail := workedTrail ▸ trail
            have whole (finished : id ∉ final.trail) : followed = parts := absurd (opened List.mem_cons_self) finished
            exact ⟨List.Subset.trans (List.subset_cons_self _ _) opened, [id], List.Subset.refl _,
              .of_byValueParts new working inside whole wentParts⟩
          · cases run

/-- Whether or not an exploration comes to its end, it goes on with a visit of its type that only
leaves open what is on the trail. -/
theorem explore_went (fuel : Nat) (new : id ∉ resolver.visited) : ∃ followed ⊆ [id],
    Went (· ∈ ((explore fuel id).finish resolver).trail) followed resolver ((explore fuel id).finish resolver) := by
  have goes := explore_goesAlong fuel id resolver new
  cases run : explore fuel id resolver with
  | ok result final =>
      rw [finish_of_ok run]
      exact ⟨[id], List.Subset.refl _, (goes.succeeds _ _ run).2 _⟩
  | error fault final =>
      rw [finish_of_error run]
      exact (goes.fails _ _ run).2

/-- The types of a cycle, in the order found: each is led back to all of them, and each but
the first one is a part of one before it. -/
structure Listed (resolver : Resolver) (members : List TypeId) : Prop where
  distinct : members.Nodup
  ordered : ∀ before id behind, members = before ++ id :: behind → before ≠ [] →
    ∃ owner ∈ before, resolver.ByValue owner id
  together : ∀ id ∈ members, ∀ other ∈ members,
    Relation.TransGen (fun id other => other ∈ members ∧ resolver.ByValue id other) id other

theorem Listed.learns {members : List TypeId} (listed : resolver.Listed members) (learns : resolver.Learns later) :
    later.Listed members where
  distinct := listed.distinct
  ordered before id behind cut notFirst := by
    obtain ⟨owner, isOwner, byValue⟩ := listed.ordered before id behind cut notFirst
    exact ⟨owner, isOwner, byValue.learns learns⟩
  together id isMember other isOther :=
    Relation.TransGen.mono (fun _ _ step => ⟨step.1, step.2.learns learns⟩) _ _ (listed.together id isMember other isOther)

/-- A cycle found holds the types linked that links lead to and back, in the order found, and none of
them leads to the trail. -/
theorem foundCycle_eq {entry : TypeId × List TypeId} (found : entry ∈ resolver.foundCycles) :
    ∃ test : TypeId → Bool, entry.2 = (resolver.links.map Prod.fst).filter test ∧
      (∀ other, test other = true ↔ Relation.TransGen (Linked resolver.links) entry.1 other ∧
        Relation.TransGen (Linked resolver.links) other entry.1) ∧
      test entry.1 = true ∧ ∀ other ∈ resolver.trail, ¬ Relation.ReflTransGen (Linked resolver.links) entry.1 other := by
  obtain ⟨⟨id, reached⟩, inReach, settled⟩ := List.mem_filterMap.mp found
  obtain ⟨link, isLink, same⟩ := List.mem_map.mp inReach
  obtain ⟨rfl, rfl⟩ := Prod.mk.inj same
  dsimp only at settled
  split at settled
  · rename_i cyclic
    obtain rfl := Option.some.inj settled
    refine ⟨fun other => other ∈ reachable resolver.links link.1 && link.1 ∈ reachable resolver.links other, ?_, ?_, ?_, ?_⟩
    · simp [List.filter_map, Function.comp_def]
    · simp [mem_reachable]
    · simpa using cyclic.1
    · intro other opened path
      have apart := cyclic.2
      simp only [Bool.not_eq_true', List.any_eq_false, Bool.or_eq_true, decide_eq_true_eq, not_or] at apart
      obtain ⟨differ, unreached⟩ := apart other opened
      rcases Relation.reflTransGen_iff_eq_or_transGen.mp path with same | path
      · exact differ same
      · exact unreached (mem_reachable.mpr path)
  · cases settled

/-- The cycles that a visit finds are listed in its order. -/
theorem Went.listed {roots : List TypeId} {mapped : Resolver} (links : resolver.links = [])
    (went : Went (· ∈ mapped.trail) roots resolver mapped) {entry : TypeId × List TypeId}
    (found : entry ∈ mapped.foundCycles) : mapped.Listed entry.2 := by
  obtain ⟨_, sameLinks, known, visits⟩ := went.visits
  rw [links, List.nil_append] at sameLinks
  subst sameLinks
  obtain ⟨test, members, tests, own, apart⟩ := foundCycle_eq found
  have onCycle := ((tests entry.1).mp own).1
  have member_iff (id : TypeId) : MutuallyOwned (Linked mapped.links) entry.1 id ↔ test id = true := by
    rw [tests]
    exact ⟨fun both => ⟨onCycle.trans_left both.1, Relation.TransGen.trans_right both.2 onCycle⟩,
      fun both => ⟨both.1.to_reflTransGen, both.2.to_reflTransGen⟩⟩
  have inMembers {id : TypeId} (isMember : test id = true) : id ∈ entry.2 := by
    obtain ⟨_, step, _⟩ := Relation.TransGen.head'_iff.mp ((tests id).mp isMember).2
    exact members ▸ List.mem_filter.mpr ⟨step.isLinked, isMember⟩
  have byValue {owner : TypeId × List TypeId} {part : TypeId} (isOwner : owner ∈ mapped.links) (isPart : part ∈ owner.2) :
      mapped.ByValue owner.1 part := ⟨owner.2, known owner isOwner, isPart⟩
  have agrees : ∀ link ∈ mapped.links, ∀ part, Linked mapped.links link.1 part ↔ part ∈ link.2 :=
    fun link isLink part => linked_iff visits.nodup isLink
  have fresh (id : TypeId) (member : MutuallyOwned (Linked mapped.links) entry.1 id) :
      id ∉ resolver.visited ∧ id ∉ mapped.trail := by
    have isMember := inMembers ((member_iff id).mp member)
    rw [members] at isMember
    exact ⟨fun before => visits.linked_new before (List.mem_filter.mp isMember).1, fun opened => apart id opened member.1⟩
  refine ⟨members ▸ visits.nodup.filter test, fun before id behind cut notFirst => ?_, fun id isMember other isOther => ?_⟩
  · obtain ⟨earlier, link, _, cutLinks, rfl, isMember, rfl⟩ := cut_filter_map (members ▸ cut)
    have notFirst : ∃ first ∈ earlier, MutuallyOwned (Linked mapped.links) entry.1 first.1 := by
      obtain ⟨_, isEarlier⟩ := List.exists_mem_of_ne_nil _ notFirst
      obtain ⟨inEarlier, earlierMember⟩ := List.mem_filter.mp isEarlier
      obtain ⟨first, isFirst, rfl⟩ := List.mem_map.mp inEarlier
      exact ⟨first, isFirst, (member_iff first.1).mpr earlierMember⟩
    obtain ⟨owner, isOwner, owned, isPart⟩ :=
      visits.part_of_member agrees fresh cutLinks ((member_iff link.1).mpr isMember) notFirst
    exact ⟨owner.1, List.mem_filter.mpr ⟨List.mem_map_of_mem isOwner, (member_iff owner.1).mp owned⟩,
      byValue (cutLinks ▸ List.mem_append_left _ isOwner) isPart⟩
  · rw [members] at isMember isOther
    have there := (tests id).mp (List.mem_filter.mp isMember).2
    have back := (tests other).mp (List.mem_filter.mp isOther).2
    have within := transGen_within there.1.to_reflTransGen (there.2.trans back.1) back.2.to_reflTransGen
    refine Relation.TransGen.mono (fun source target step => ?_) _ _ within
    obtain ⟨link, isLink, rfl⟩ := List.mem_map.mp step.2.isLinked
    exact ⟨inMembers ((member_iff target).mp step.1), byValue isLink ((agrees link isLink target).mp step.2)⟩

/-- A resolver between two queries, all of whose cycles are listed in the order found. -/
structure Ordered (resolver : Resolver) : Prop where
  links : resolver.links = []
  listed : ∀ entry ∈ resolver.cycles, resolver.Listed entry.2

theorem Ordered.of_learns (ordered : resolver.Ordered) (learns : resolver.Learns later)
    (links : later.links = resolver.links) (cycles : later.cycles = resolver.cycles) : later.Ordered where
  links := links.trans ordered.links
  listed entry member := (ordered.listed entry (cycles ▸ member)).learns learns

theorem exploreOnce_ordered (fuel : Nat) (id : TypeId) : (exploreOnce fuel id).Preserves (Lasts Ordered) := by
  refine preserves_iff.mpr fun resolver ordered => ?_
  change Ordered (finish (if id ∉ resolver.visited then _ else _) resolver)
  split
  · rename_i new
    rw [finish_andFinally]
    obtain ⟨followed, _, went⟩ := explore_went fuel new
    have explored := explore_explores fuel id resolver new
    have settles (mapped : Resolver) : mapped.Learns mapped.settle := { refl_of Learns mapped with }
    refine ⟨rfl, fun entry member => ?_⟩
    rcases List.mem_append.mp member with before | found
    · exact (ordered.listed entry (explored.cycles ▸ before)).learns (trans_of Learns explored.toLearns (settles _))
    · exact (went.listed ordered.links found).learns (settles _)
  · exact ordered

theorem ordered_leadsQueries (hooks : Registry) : LeadsQueries hooks (Lasts Ordered) (Lasts Ordered) := by
  apply leadsQueries_of_verdicts hooks
  · apply leadsVerdicts_of_judges
    · exact fun resolver later judges ordered => ordered.of_learns judges.toLearns judges.links judges.cycles
    · exact fun resolver later judges ordered => ordered.of_learns judges.toLearns judges.links judges.cycles
    · exact exploreOnce_ordered
    · exact fun ids resolver ordered => ordered.of_learns { refl_of Learns resolver with } rfl rfl
    · exact fun diagnostics resolver ordered => ordered.of_learns { refl_of Learns resolver with } rfl rfl
  · exact fun operations resolver ordered => ordered.of_learns { refl_of Learns resolver with } rfl rfl

/-- The cycles of a resolver in service are listed in the order found. -/
theorem Serving.ordered {hooks : Registry} (serving : Serving hooks resolver) : resolver.Ordered := by
  refine serving.keeps (fun table built => ⟨rfl, by simp⟩) (ordered_leadsQueries hooks) fun resolver larger ordered extends_ _ => ?_
  exact ordered.of_learns ⟨extends_, fun _ _ known => known⟩ rfl rfl

end Resolver
end LifecycleHooks

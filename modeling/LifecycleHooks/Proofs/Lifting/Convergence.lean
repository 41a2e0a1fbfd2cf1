import LifecycleHooks.Proofs.Lifting.FoundedVerdicts
import LifecycleHooks.Proofs.Lifting.Planning

/-!
# Types that are made from finitely many

The bodies of instances are worked out while the types are walked, so only the verdicts on generic
objects cut off endless growth.  In whatever order the generic objects are judged, every type reaches
finitely many types once all of them are, if those do that are judged not to grow.  They do if no object
is judged both ways, since an object that is judged first is searched to its end.  Where objects are
layered, none is: the search for growth then leaves no object out because it is being judged.
-/

namespace LifecycleHooks

open Attempt ResolveM Resolver TypeTable

namespace Resolver

variable {hooks : Registry} {resolver later last : Resolver} {id head : TypeId}

section Judging

/-- The resolvers that another one can come to by judging objects, whether or not it gets to the end
of that, and by what leaves all verdicts alone. -/
inductive Proceeds (resolver : Resolver) : Resolver → Prop where
  | start : Proceeds resolver resolver
  | judged {later : Resolver} (earlier : Proceeds resolver later) (fuel : Nat) (id : TypeId) :
      Proceeds resolver ((growsForever fuel id).finish later)
  | stood {later last : Resolver} (earlier : Proceeds resolver later) (stays : StaysIntact later last)
      (growth : last.growth = later.growth) (judging : last.judging = later.judging) : Proceeds resolver last

theorem Proceeds.trans (first : resolver.Proceeds later) (second : later.Proceeds last) : resolver.Proceeds last := by
  induction second with
  | start => exact first
  | judged _ fuel id ih => exact ih.judged fuel id
  | stood _ stays growth judging ih => exact ih.stood stays growth judging

theorem Proceeds.since (intact : resolver.Intact) (judging : resolver.judging = [])
    (proceeds : resolver.Proceeds later) : resolver.Since later := by
  induction proceeds with
  | start => exact ⟨intact, judging, .refl _, refl_of Learns resolver⟩
  | judged _ fuel id since => exact since.judges ((growsForever_judges fuel id).finish _)
  | stood _ stays growth judging since =>
      obtain ⟨lastIntact, unfolds⟩ := stays since.intact
      exact ⟨lastIntact, judging.trans since.judging, since.unfolds.trans unfolds,
        trans_of Learns since.learns ⟨unfolds.extends_, growth ▸ fun _ _ known => known⟩⟩

/-- Going on is something that remains. -/
theorem remains_proceeds (intact : resolver.Intact) (judging : resolver.judging = []) :
    Remains resolver.Proceeds where
  intact proceeds := (proceeds.since intact judging).intact
  judging proceeds := (proceeds.since intact judging).judging
  asks extends_ unrolls := onTable_preserves extends_ unrolls fun _ _ judges proceeds =>
    proceeds.stood judges.staysIntact rfl rfl
  grows fuel id := preserves_iff.mpr fun _ proceeds => proceeds.judged fuel id
  stands proceeds intact table growth judging :=
    proceeds.stood (fun _ => ⟨intact, table ▸ .refl _⟩) growth judging

/-- All generic objects are judged. -/
def Decided (resolver : Resolver) : Prop :=
  ∀ head ∈ resolver.table.genericObjects, ∃ grows, resolver.growth.lookup head = some grows

theorem Since.genericObjects_eq (since : resolver.Since later) :
    later.table.genericObjects = resolver.table.genericObjects :=
  Set.Subset.antisymm (genericObjects_unfolds since.unfolds) fun _ => genericObjects_extends since.learns.table

/-- Some generic objects can be judged next. -/
theorem Proceeds.judge_all (intact : resolver.Intact) (judging : resolver.judging = []) (heads : List TypeId)
    (generic : ∀ head ∈ heads, head ∈ resolver.table.genericObjects) :
    ∃ last, resolver.Proceeds last ∧ ∀ head ∈ heads, ∃ grows, last.growth.lookup head = some grows := by
  induction heads with
  | nil => exact ⟨resolver, .start, by simp⟩
  | cons head heads ih =>
      obtain ⟨first, others⟩ := List.forall_mem_cons.mp generic
      obtain ⟨later, proceeds, known⟩ := ih others
      have since := proceeds.since intact judging
      have stillFirst : head ∈ later.table.genericObjects := since.genericObjects_eq ▸ first
      have settles := growsForever_settles since.intact (has_of_mem_genericObjects stillFirst)
        (by simp [since.judging]) (by simp [since.judging]) (by simp [since.judging])
      obtain ⟨grows, last, -, answers⟩ := settles
      obtain ⟨fuel, run⟩ := answers.exists
      have further : later.Proceeds last := finish_of_ok run ▸ Proceeds.start.judged fuel head
      have learns := (further.since since.intact since.judging).learns
      refine ⟨last, proceeds.trans further, List.forall_mem_cons.mpr ⟨⟨grows, ?_⟩, fun other member => ?_⟩⟩
      · exact (judged_of_run run).lookup_generic (genericObjects_extends learns.table stillFirst)
      · obtain ⟨verdict, isKnown⟩ := known other member
        exact ⟨verdict, learns.growth _ _ isKnown⟩

theorem exists_decided (intact : resolver.Intact) (judging : resolver.judging = []) :
    ∃ last, resolver.Proceeds last ∧ last.Decided := by
  have finite := resolver.table.finite_genericObjects
  obtain ⟨last, proceeds, known⟩ := Proceeds.judge_all intact judging finite.toFinset.toList (by simp)
  refine ⟨last, proceeds, fun head generic => known head ?_⟩
  rw [(proceeds.since intact judging).genericObjects_eq] at generic
  simpa using generic

end Judging

section Converging

/-- In whatever order the generic objects are judged from now on, every type reaches finitely many
types once all of them are. -/
def Converges (resolver : Resolver) : Prop :=
  ∀ later, resolver.Proceeds later → later.Decided → ∀ id, later.table.Has id → (later.reach id).Finite

/-- The generic objects that are judged not to grow then do so. -/
def HeadsConverge (resolver : Resolver) : Prop :=
  ∀ later, resolver.Proceeds later → later.Decided →
    ∀ head ∈ later.table.genericObjects, later.growth.lookup head = some false → (later.reach head).Finite

/-- No generic object that the resolver may judge not to grow is judged to grow by one that starts
afresh. -/
def JudgedOneWay (resolver : Resolver) : Prop :=
  ∀ later other head, resolver.Proceeds later → Proceeds { table := resolver.table } other →
    later.growth.lookup head = some false → other.growth.lookup head ≠ some true

/-- The generic objects that are not judged not to grow. -/
def unspared (resolver : Resolver) : Set TypeId :=
  {head | head ∈ resolver.table.genericObjects ∧ resolver.growth.lookup head ≠ some false}

theorem Learns.unspared_subset (learns : resolver.Learns later)
    (same : later.table.genericObjects ⊆ resolver.table.genericObjects) : later.unspared ⊆ resolver.unspared := by
  rintro head ⟨generic, unspared⟩
  exact ⟨same generic, fun spared => unspared (learns.growth _ _ spared)⟩

theorem Judged.avoids (judged : resolver.Judged id false) (wellFormed : resolver.table.WellFormed) :
    (resolver.table.tree id).Avoids resolver.unspared :=
  fun _ isHead isBarred => isBarred.2 (judged.lookup_head wellFormed isHead isBarred.1)

/-- Once all generic objects are judged, those that are not judged not to grow are judged to grow. -/
theorem Decided.avoids {owner : TypeTree} (decided : resolver.Decided) (follows : resolver.Follows owner) :
    owner.Avoids resolver.unspared := by
  rintro head isHead ⟨generic, unspared⟩
  obtain ⟨grows, known⟩ := decided head generic
  have asked := head?_of_mem_genericObjects generic
  obtain ⟨object, isObject, params⟩ := generic
  cases grows with
  | true =>
      exact follows head isHead
        (.generic asked (get_eq_ok.mpr isObject) (by simpa [TypeDef.typeParams] using params) known)
  | false => exact unspared known

theorem follows_of_avoids {owner part : TypeTree} (isPart : part ∈ resolver.table.constituentTrees owner)
    (avoids : owner.Avoids resolver.unspared) : resolver.Follows owner := by
  intro head isHead judged
  obtain ⟨type, found, declared⟩ : ∃ type, resolver.table.get? head = some type ∧ type.isStructural = false := by
    cases isDeclared : resolver.table.declared? head with
    | some type => exact ⟨type, declared?_eq_some.mp isDeclared⟩
    | none =>
        obtain ⟨label, operands⟩ := owner
        cases label with
        | named id =>
            obtain rfl := Option.some.inj isHead
            simp [constituentTrees, isDeclared] at isPart
        | applied other =>
            obtain rfl := Option.some.inj isHead
            simp [constituentTrees, isDeclared] at isPart
        | _ => cases isHead
  cases judged with
  | @generic other other' _ asked isType isGeneric known =>
      rw [TypeTable.head?, get_eq_ok.mpr found] at asked
      obtain rfl : head = other := by
        cases type with
        | object object => exact Option.some.inj (Except.ok.inj asked)
        | distinct name underlying span => exact Option.some.inj (Except.ok.inj asked)
        | applied other args => cases declared
        | _ => cases asked
      have generic := mem_genericObjects_of_typeParams (get_eq_ok.mp isType) isGeneric
      refine avoids head isHead ⟨generic, fun spared => ?_⟩
      cases known.symm.trans spared

/-- Once all generic objects are judged, a type reaches what it leads to through types that are
judged not to grow. -/
theorem Decided.reach_eq (decided : resolver.Decided) (id : TypeId) :
    resolver.reach id = resolver.table.avoiding resolver.unspared (resolver.table.tree id) := by
  refine Set.Subset.antisymm (fun tree => ?_) fun tree => ?_
  · exact Relation.ReflTransGen.mono (fun _ _ step => ⟨decided.avoids step.1, step.2⟩) _ _
  · exact Relation.ReflTransGen.mono (fun _ _ step => ⟨follows_of_avoids step.2 step.1, step.2⟩) _ _

theorem Converges.proceeds (converges : resolver.Converges) (proceeds : resolver.Proceeds later) : later.Converges :=
  fun last further => converges last (proceeds.trans further)

/-- It is enough to know what generic objects reach. -/
theorem HeadsConverge.converges (heads : resolver.HeadsConverge) (intact : resolver.Intact)
    (judging : resolver.judging = []) : resolver.Converges := by
  intro later proceeds decided id has
  have wellFormed := (proceeds.since intact judging).intact.regular.toWellFormed
  rw [decided.reach_eq]
  refine wellFormed.finite_avoiding (fun head generic free => ?_) has
  rw [← decided.reach_eq]
  refine heads later proceeds decided head generic ?_
  by_contra unspared
  exact free ⟨generic, unspared⟩

theorem Converges.headsConverge (converges : resolver.Converges) : resolver.HeadsConverge :=
  fun later proceeds decided head generic _ => converges later proceeds decided head (has_of_mem_genericObjects generic)

/-- A resolver may as well start afresh over a table that another one works on. -/
theorem Proceeds.afresh (intact : resolver.Intact) (judging : resolver.judging = [])
    (proceeds : resolver.Proceeds later) : Proceeds { table := resolver.table } { table := later.table } := by
  have since := proceeds.since intact judging
  exact Proceeds.start.stood (fun _ => ⟨⟨since.intact.regular, by simp, by simp⟩, since.unfolds⟩) rfl rfl

/-- Where no object is judged both ways, the search of an object that is judged first comes upon
everything that the object reaches, however it was judged before. -/
theorem JudgedOneWay.headsConverge (oneWay : resolver.JudgedOneWay) (intact : resolver.Intact)
    (judging : resolver.judging = []) : resolver.HeadsConverge := by
  intro later proceeds decided head generic spared
  have laterIntact := (proceeds.since intact judging).intact
  have wellFormed := laterIntact.regular.toWellFormed
  have has := has_of_mem_genericObjects generic
  have afresh := proceeds.afresh intact judging
  have freshIntact := (fresh_founded laterIntact.regular).intact
  obtain ⟨verdict, final, -, answers⟩ := growsForever_settles freshIntact has List.nodup_nil (by simp) (by simp)
  obtain ⟨fuel, run⟩ := answers.exists
  replace run : growsForever fuel head { table := later.table } = .ok verdict final := run
  cases fuel with
  | zero => cases run
  | succ fuel =>
      have further : Proceeds { table := resolver.table } final := finish_of_ok run ▸ afresh.judged (fuel + 1) head
      obtain ⟨finalIntact, unfolds⟩ := ((growsForever_judges (fuel + 1) head).of_ok run).staysIntact freshIntact
      obtain ⟨ended, searched, sameTable, sameGrowth⟩ := search_of_first_judgement generic run
      cases verdict with
      | true =>
          refine absurd ?_ (oneWay later final head proceeds further spared)
          rw [sameGrowth, List.lookup_cons_self]
      | false =>
          have begunIntact : Intact { table := later.table, judging := [head] } :=
            ⟨laterIntact.regular, by simp, by simp⟩
          obtain ⟨region, isStart, passes⟩ := region_of_search begunIntact has rfl searched
          rw [← sameTable] at passes
          have seen {tree : TypeTree} (inside : tree ∈ later.reach head) : ∃ id ∈ region, final.table.tree id = tree := by
            rw [decided.reach_eq] at inside
            induction inside with
            | refl => exact ⟨head, isStart, wellFormed.tree_extends unfolds.extends_ has⟩
            | tail _ step ih =>
                obtain ⟨id, inRegion, rfl⟩ := ih
                obtain ⟨other, args, found, isOther, grows⟩ | ⟨_, parts⟩ := passes id inRegion
                · -- An instance that the search left out belongs to an object that was judged to grow.
                  obtain ⟨object, isObject, params, _⟩ := finalIntact.regular.applied id other args found
                  have isHead : (final.table.tree id).head? = some other := by
                    rw [finalIntact.regular.toWellFormed.tree_eq found]
                    rfl
                  have otherSpared : later.growth.lookup other = some false := by
                    by_contra unspared
                    exact step.1 other isHead ⟨genericObjects_unfolds unfolds ⟨object, isObject, params⟩, unspared⟩
                  refine absurd ?_ (oneWay later final other proceeds further otherSpared)
                  rw [sameGrowth, lookup_cons_of_ne isOther]
                  exact grows
                · exact parts _ (by rw [wellFormed.constituentTrees_unfolds unfolds]; exact step.2)
          refine (region.map final.table.tree).finite_toSet.subset fun tree inside => ?_
          obtain ⟨id, inRegion, rfl⟩ := seen inside
          exact List.mem_map_of_mem inRegion

end Converging

section Layering

variable {table : TypeTable} {layer : TypeId → Nat}

/-- A resolver whose verdicts have reasons, if the objects that it works on are layered. -/
structure Layerwise (layer : TypeId → Nat) (resolver : Resolver) : Prop where
  intact : resolver.Intact
  judging : resolver.judging = []
  justified : resolver.table.Layered layer → Justified resolver.table resolver.growth

theorem Layerwise.careful (layerwise : resolver.Layerwise layer) (layered : resolver.table.Layered layer) :
    resolver.Careful resolver.table :=
  ⟨layerwise.intact, .refl _, layerwise.justified layered⟩

/-- Further types take no reasons away. -/
theorem Layerwise.grown (layerwise : resolver.Layerwise layer) (intact : later.Intact)
    (extends_ : resolver.table.Extends later.table) (growth : later.growth = resolver.growth)
    (judging : later.judging = resolver.judging) : later.Layerwise layer where
  intact := intact
  judging := judging.trans layerwise.judging
  justified layered := by
    have wellFormed := layerwise.intact.regular.toWellFormed
    rw [growth]
    exact (layerwise.justified (layered.earlier wellFormed extends_)).extends_ wellFormed extends_

theorem remains_layerwise (layer : TypeId → Nat) : Remains (Layerwise layer) where
  intact := Layerwise.intact
  judging := Layerwise.judging
  asks extends_ unrolls := onTable_preserves extends_ unrolls fun resolver _ judges layerwise =>
    layerwise.grown (judges.staysIntact layerwise.intact).1 judges.table rfl judges.judging
  grows fuel id := preserves_iff.mpr fun resolver layerwise => by
    have judges := (growsForever_judges fuel id).finish resolver
    obtain ⟨intact, unfolds⟩ := judges.staysIntact layerwise.intact
    have wellFormed := layerwise.intact.regular.toWellFormed
    refine ⟨intact, judges.judging.trans layerwise.judging, fun layered => ?_⟩
    have before := layered.earlier wellFormed unfolds.extends_
    have careful := growsForever_careful wellFormed before fuel id resolver (layerwise.careful before)
      (by simp [layerwise.judging])
    exact careful.justified.extends_ wellFormed unfolds.extends_
  stands layerwise intact table growth judging := layerwise.grown intact (table ▸ .refl _) growth judging

theorem Serving.layerwise (serving : Serving hooks resolver) (layer : TypeId → Nat) : resolver.Layerwise layer := by
  refine serving.keeps (fun table built => ?_) ?_ fun resolver larger layerwise extends_ intact => ?_
  · exact ⟨⟨built.regular, by simp, by simp⟩, rfl, fun _ _ _ known => by cases known⟩
  · exact (persists_leadsQueries hooks).both (persists_leadsQueries hooks) fun _ _ persists _ =>
      persists _ (remains_layerwise layer)
  · exact layerwise.grown intact extends_ rfl rfl

/-- Going on, a resolver gives further verdicts for reasons only. -/
theorem Careful.proceeds (careful : resolver.Careful table) (wellFormed : table.WellFormed)
    (layered : table.Layered layer) (judging : resolver.judging = []) (proceeds : resolver.Proceeds later) :
    later.Careful table := by
  induction proceeds with
  | start => exact careful
  | judged earlier fuel id ih =>
      have since := earlier.since careful.intact judging
      exact growsForever_careful wellFormed layered fuel id _ ih (by simp [since.judging])
  | stood earlier stays growth _ ih =>
      obtain ⟨intact, unfolds⟩ := stays ih.intact
      exact ⟨intact, ih.unfolds.trans unfolds, growth ▸ ih.justified⟩

/-- Where objects are layered, none is judged both ways. -/
theorem Serving.judgedOneWay (serving : Serving hooks resolver) (layered : resolver.table.Layered layer) :
    resolver.JudgedOneWay := by
  intro later other head proceeds further spared grows
  have wellFormed := serving.intact.regular.toWellFormed
  have fresh : Careful resolver.table { table := resolver.table } :=
    ⟨⟨serving.intact.regular, by simp, by simp⟩, .refl _, fun _ _ known => by cases known⟩
  have first := ((serving.layerwise layer).careful layered).proceeds wellFormed layered serving.judging proceeds
  have second := fresh.proceeds wellFormed layered rfl further
  cases first.justified.agrees layered second.justified spared grows

end Layering

end Resolver
end LifecycleHooks

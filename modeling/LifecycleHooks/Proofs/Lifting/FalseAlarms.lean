import LifecycleHooks.Proofs.Lifting.EffectiveOperation
import LifecycleHooks.Proofs.Lifting.FoundedVerdicts
import LifecycleHooks.Proofs.Lifting.Planning
import LifecycleHooks.Proofs.Lifting.Reports
import LifecycleHooks.Proofs.Lifting.SelfContainment
import Mathlib

/-!
# No false alarm about growing objects

Whatever a resolver in service was asked, no shallow object was judged to grow, and none was
reported to.  A type of such an object keeps its hooks, unless it contains itself by value.
An object may hold deep instances although what it is made from is finite; it is judged to
grow all the same, and so is an object that was judged before it had its last body.
-/

namespace LifecycleHooks

open Attempt ResolveM Resolver TypeTable

namespace Resolver

variable {hooks : Registry} {resolver : Resolver} {id head : TypeId}

/-- A type that is not judged to grow is held to be unresolvable only if it contains itself. -/
theorem Held.containsItself (truthful : resolver.Truthful) (spared : ¬ resolver.Judged id true)
    (held : resolver.Held id) : resolver.table.ContainsItself id := by
  cases held with
  | grows judged => exact absurd judged spared
  | cyclic _ _ onCycle => exact (truthful.cycles _ (mem_of_lookup onCycle)).2

/-- A type that belongs to early types that lead to each other only is shallow. -/
theorem shallow_of_leadsToEachOther {table : TypeTable} {ids : List TypeId} (wellFormed : table.WellFormed)
    (early : ∀ other ∈ ids, other.toNat ≤ nestingLimit) (member : id ∈ ids) (closed : leadsToEachOther table ids = true) :
    table.Shallow id := by
  intro tree inside deep
  obtain ⟨other, isOther, rfl⟩ := contents_of_leadsToEachOther wellFormed member closed inside
  obtain ⟨_, _, run, _⟩ := constituents_of_leadsToEachOther isOther closed
  obtain ⟨_, _, fetched, _⟩ := bind_eq_ok.mp run
  have bounded := wellFormed.depth_tree_le (has_of_get? (TableM.fetch_eq_ok.mp fetched).1)
  have isEarly := early other isOther
  have tooDeep := deep.2
  omega

/-- In a small table that holds all constituents of its types, no object ever grows. -/
theorem neverGrows_of_leadsToEachOther {table : TypeTable} (regular : table.Regular)
    (small : table.size ≤ nestingLimit) (closed : leadsToEachOther table table.ids = true) : NeverGrows table := by
  have early : ∀ id ∈ table.ids, id.toNat ≤ nestingLimit := by
    intro id member
    obtain ⟨index, below, rfl⟩ := List.mem_map.mp member
    have inRange := List.mem_range.mp below
    omega
  refine neverGrows_of_allShallow regular fun head generic => ?_
  have listed := (has_of_mem_genericObjects generic).mem_ids
  exact shallow_of_leadsToEachOther regular.toWellFormed early listed closed

/-- A type of a shallow object is unresolvable only if it contains itself. -/
theorem Serving.containsItself (serving : Serving hooks resolver) (has : resolver.table.Has id)
    (isHead : resolver.table.head? id = .ok (some head)) (shallow : resolver.table.Shallow head)
    (unresolvable : resolver.Unresolvable id) : resolver.table.ContainsItself id := by
  obtain ⟨fuel, final, run⟩ := unresolvable
  have later := serving.asked_isUnresolvable run
  have extends_ := ((isUnresolvable_consults fuel id).of_ok run).toExtends.table
  have hasHead := head_known serving.intact has isHead head rfl
  have held := held_of_answer serving.ready.idle run
  have itself : final.table.ContainsItself id := by
    refine held.containsItself later.truthful (later.founded.not_judged fun other isOther _ => ?_)
    obtain rfl : head = other := by simpa [extends_.head? isHead] using isOther
    exact (shallow_extends_iff serving.intact hasHead extends_).mpr shallow
  exact (serving.intact.regular.containsItself_extends extends_ has).mp itself

/-- Whatever else is being judged, a shallow object is judged not to grow. -/
theorem Serving.judged_not_to_grow (serving : Serving hooks resolver) (has : resolver.table.Has id)
    (isHead : resolver.table.head? id = .ok (some head)) (shallow : resolver.table.Shallow head) {judging : List TypeId}
    (distinct : judging.Nodup) (objects : ∀ other ∈ judging, other ∈ resolver.table.objects)
    (notBusy : head ∉ judging) :
    Settles (fun grows _ => grows = false) (fun fuel => growsForever fuel id)
      { resolver with judging := judging } := by
  have founded : Founded { resolver with judging := judging } := serving.founded.of_eq rfl rfl rfl rfl
  have settles := growsForever_settles founded.intact has distinct objects fun other isOther => by
    obtain rfl : head = other := by simpa [isHead] using isOther
    exact notBusy
  refine settles.mono fun grows final fuel run _ => growsForever_of_shallow founded has (fun other isOther _ => ?_) run
  obtain rfl : head = other := by simpa [isHead] using isOther
  exact shallow

/-- A type of a shallow object that reaches finitely many types and does not contain itself keeps the
operation of the hook that overrides it. -/
theorem Serving.resolve_kept (serving : Serving hooks resolver) (has : resolver.table.Has id)
    (isHead : resolver.table.head? id = .ok (some head)) (shallow : resolver.table.Shallow head)
    (finite : (resolver.table.contents id).Finite) (alone : ¬ resolver.table.ContainsItself id) (kind : OpKind)
    (frozen : hooks.frozen = true) :
    Settles (fun operation final => IsEffective hooks final id kind operation.outcome ∧ ¬ final.Unresolvable id ∧
        ∀ entry, resolver.table.Overridden hooks kind id entry → operation.outcome = .overridden entry)
      (fun fuel => resolve hooks fuel id kind) resolver := by
  have hasHead := head_known serving.intact has isHead head rfl
  have prepared := serving.prepared has
  have reachFinite := finite.subset (reach_subset_contents resolver id)
  have settles : Settles (fun _ _ => True) (fun fuel => resolve hooks fuel id kind) resolver :=
    resolve_settles frozen reachFinite prepared.confined (prepared.within id (by simp))
  refine settles.mono fun operation final fuel run _ => ?_
  obtain ⟨_, _, reached⟩ := serving.reached
  have later := serving.asked_resolve run
  have asks := (resolve_extends hooks fuel id kind).of_ok run
  have extends_ := asks.table
  have effective := (resolve_isEffective reached run).2.2
  have stillAlone : ¬ final.table.ContainsItself id :=
    mt (serving.intact.regular.containsItself_extends extends_ has).mp alone
  have stillShallow := (shallow_extends_iff serving.intact hasHead extends_).mpr shallow
  have resolvable : ¬ final.Unresolvable id :=
    mt (later.containsItself (has.extends_ extends_) (extends_.head? isHead) stillShallow) stillAlone
  exact ⟨effective, resolvable, fun entry overridden =>
    (effective.overridden entry).mpr ⟨resolvable, Overridden.extends_ asks overridden⟩⟩

/-- No shallow object is judged to grow, at rest or amidst the judging of others, and none was
reported to.  Its types keep their hooks, unless they contain themselves. -/
theorem Serving.spares_shallow_objects (serving : Serving hooks resolver) (has : resolver.table.Has id)
    (isHead : resolver.table.head? id = .ok (some head)) (shallow : resolver.table.Shallow head) :
    (resolver.table.contents head).Finite ∧
    (∀ judging : List TypeId, judging.Nodup → (∀ other ∈ judging, other ∈ resolver.table.objects) → head ∉ judging →
      Settles (fun grows _ => grows = false) (fun fuel => growsForever fuel id)
        { resolver with judging := judging }) ∧
    (∃ reports, resolver.Booked reports ∧ .growth head ∉ reports) ∧
    ((resolver.table.contents id).Finite → ¬ resolver.table.ContainsItself id → ¬ resolver.Unresolvable id ∧
      ∀ kind, hooks.frozen = true →
        Settles (fun operation final => IsEffective hooks final id kind operation.outcome ∧ ¬ final.Unresolvable id ∧
            ∀ entry, resolver.table.Overridden hooks kind id entry → operation.outcome = .overridden entry)
          (fun fuel => resolve hooks fuel id kind) resolver) := by
  have hasHead := head_known serving.intact has isHead head rfl
  refine ⟨?finite, ?judged, ?reported, ?kept⟩
  case finite => exact serving.intact.regular.finite_contents_of_shallow hasHead shallow
  case judged =>
    intro judging distinct objects notBusy
    exact serving.judged_not_to_grow has isHead shallow distinct objects notBusy
  case reported =>
    obtain ⟨_, reports, booked⟩ := serving.accounted
    exact ⟨reports, booked, fun told => (serving.founded.founded head (booked.stand _ told)).2 shallow⟩
  case kept =>
    intro finite alone
    refine ⟨mt (serving.containsItself has isHead shallow) alone, fun kind frozen => ?_⟩
    exact serving.resolve_kept has isHead shallow finite alone kind frozen

/-- Chained nodes over an item, and nodes of handles. -/
def chainedTable : TypeTable :=
  TypeTable.after {} [.object "Node" ["T"] {}, .instantiate 1 [2], .wrap .ref 3,
    .define 1 { fields := [⟨"item", 2⟩, ⟨"next", 4⟩] }, .object "Handle" [] {}, .instantiate 1 [5], .wrap .ref 6]

/-- The hook that destroys a node. -/
def unlinkHook : HookEntry where
  kind := .destroy
  target := 1
  params := []
  result := 1
  impl := "unlink"

def chainedHooks : Registry where
  entries := [unlinkHook]
  frozen := true

theorem chainedTable_built : chainedTable.Built :=
  TypeTable.Built.empty.after (by decide +kernel)

/-- A node of handles holds a handle, and the next node only by reference. -/
theorem not_containsItself_chained : ¬ chainedTable.ContainsItself 6 := by
  have spelled : chainedTable.tree 6 = .node (.applied 1) [.node (.named 5) []] := by cbv
  have parts : chainedTable.constituentTrees (.node (.applied 1) [.node (.named 5) []]) =
      [.node (.named 5) [], .node (.wrap .ref) [.node (.applied 1) [.node (.named 5) []]]] := by cbv
  have empty : chainedTable.constituentTrees (.node (.named 5) []) = [] := by cbv
  intro itself
  rw [ContainsItself, spelled] at itself
  obtain ⟨part, ⟨_, isPart⟩, onwards⟩ := Relation.TransGen.head'_iff.mp itself
  rw [parts] at isPart
  rcases Relation.ReflTransGen.cases_head onwards with rfl | ⟨next, ⟨encloses, isNext⟩, _⟩
  · simp at isPart
  · rcases List.mem_pair.mp isPart with rfl | rfl
    · simp [empty] at isNext
    · cases encloses

theorem chained_nodes_spared :
    ((chainedTable.contents 1).Finite ∧
      Settles (fun grows _ => grows = false) (fun fuel => growsForever fuel 6) { table := chainedTable }) ∧
    Settles (fun operation _ => operation.outcome = .overridden unlinkHook)
      (fun fuel => resolve chainedHooks fuel 6 .destroy) { table := chainedTable } := by
  have serving : Serving chainedHooks { table := chainedTable } := .start chainedTable_built
  have wellFormed := chainedTable_built.regular.toWellFormed
  have headClosed : leadsToEachOther chainedTable [1, 2, 3, 4] = true := by decide +kernel
  have shallow : chainedTable.Shallow 1 :=
    shallow_of_leadsToEachOther wellFormed (by decide) (by simp) headClosed
  have closed : leadsToEachOther chainedTable [5, 6, 7] = true := by decide +kernel
  have finite : (chainedTable.contents 6).Finite :=
    finite_contents_of_leadsToEachOther wellFormed (by simp) closed
  have has : (chainedTable.get? 6).isSome = true := by decide +kernel
  have isHead : chainedTable.head? 6 = .ok (some 1) := by decide +kernel
  have governs : chainedTable.governingHook? chainedHooks 6 .destroy = .ok (some unlinkHook) := by decide +kernel
  obtain ⟨headFinite, judged, _, kept⟩ := serving.spares_shallow_objects has isHead shallow
  obtain ⟨_, resolves⟩ := kept finite not_containsItself_chained
  have resolved := (resolves .destroy rfl).mono fun operation _ _ _ found =>
    found.2.2 unlinkHook (governingHook?_eq_ok_some.mp governs)
  exact ⟨⟨headFinite, judged [] (by simp) (by simp) (by simp)⟩, resolved⟩

/-- A generic object that holds a box of sequences of sequences, and so on. -/
def deepTable : TypeTable :=
  TypeTable.after {} ([.object "Box" ["T"] {}, .object "Deep" ["U"] {}, .int] ++
    (List.range nestingLimit).map (fun level => .wrap .seq (5 + level)) ++
    [.instantiate 1 [37], .define 1 { fields := [⟨"item", 2⟩] }, .define 3 { fields := [⟨"boxed", 38⟩] },
      .instantiate 3 [5]])

theorem deepTable_built : deepTable.Built :=
  TypeTable.Built.empty.after (by decide +kernel)

/-- The resolver that was asked about the deep object. -/
def askedResolver : Resolver :=
  ((Query.isUnresolvable 3).ask {} 99).finish { table := deepTable }

/-- The definition of the deep object as one that only holds an item. -/
def flattening : TableCall :=
  .define 3 { fields := [⟨"item", 4⟩] }

/-- The resolver that judged the deep object before it got its last body. -/
def outdatedResolver : Resolver :=
  { askedResolver with table := flattening.run.finish askedResolver.table }

theorem outdatedResolver_regular : outdatedResolver.table.Regular := by
  have serving : Serving {} askedResolver := (Serving.start deepTable_built).asked 99 (.isUnresolvable 3)
  have known : ∀ id ∈ flattening.given, (askedResolver.table.get? id).isSome = true := by decide +kernel
  exact flattening.run_regular serving.intact.regular known

/-- An object that is made from finitely many types only is judged to grow and reported when it
holds an instance that nests too deeply, and when it was judged before its body was replaced. -/
theorem finite_objects_judged_to_grow :
    ((deepTable.contents 3).Finite ∧ deepTable.head? 39 = .ok (some 3) ∧
      (growsForever 99 39).result? { table := deepTable } = some true ∧
      ((isUnresolvable 99 39).finish { table := deepTable }).diagnostics ≠ []) ∧
    ((outdatedResolver.table.contents 3).Finite ∧ outdatedResolver.table.Shallow 3 ∧
      (growsForever 99 3).result? outdatedResolver = some true ∧ outdatedResolver.diagnostics ≠ []) := by
  have deep : leadsToEachOther deepTable ((List.range 38).map fun level => (level : Int) + 1) = true ∧
      deepTable.head? 39 = .ok (some 3) ∧ (growsForever 99 39).result? { table := deepTable } = some true ∧
      ((isUnresolvable 99 39).finish { table := deepTable }).diagnostics ≠ [] := by decide +kernel
  have outdated : leadsToEachOther outdatedResolver.table [3, 4] = true ∧
      (growsForever 99 3).result? outdatedResolver = some true ∧ outdatedResolver.diagnostics ≠ [] := by
    decide +kernel
  have wellFormed := outdatedResolver_regular.toWellFormed
  refine ⟨⟨?_, deep.2⟩, ?_, ?_, outdated.2⟩
  · exact finite_contents_of_leadsToEachOther deepTable_built.regular.toWellFormed (by decide +kernel) deep.1
  · exact finite_contents_of_leadsToEachOther wellFormed List.mem_cons_self outdated.1
  · exact shallow_of_leadsToEachOther wellFormed (by decide) List.mem_cons_self outdated.1

end Resolver
end LifecycleHooks

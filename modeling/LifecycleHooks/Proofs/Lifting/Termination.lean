import LifecycleHooks.Proofs.Lifting.Convergence
import LifecycleHooks.Proofs.Lifting.Dependence
import LifecycleHooks.Proofs.Lifting.SelfContainment
import Mathlib

/-!
# Where resolution ends

Each walk of a resolver ends, whatever is asked in which order, if every type reaches finitely many types
once all generic objects are judged.  An object that is judged amidst others may be judged not to grow
although it does.  Then there are types that lead on for ever, and a walk over them never ends.
-/

namespace LifecycleHooks

open Attempt ResolveM Resolver TypeTable

namespace Resolver

variable {hooks : Registry} {resolver later : Resolver} {id : TypeId}

section Asking

/-- What a type leads to for some later resolver, through types that this one judged not to grow. -/
def prospect (resolver : Resolver) (id : TypeId) : Set TypeTree :=
  {tree | ∃ later, resolver.Proceeds later ∧ tree ∈ later.table.avoiding later.unspared (resolver.table.tree id)}

/-- There are only so many ways in which the generic objects may be judged. -/
theorem Converges.finite_prospect (converges : resolver.Converges) (intact : resolver.Intact)
    (judging : resolver.judging = []) (has : resolver.table.Has id) : (resolver.prospect id).Finite := by
  have wellFormed := intact.regular.toWellFormed
  have ways : {barred | ∃ later, resolver.Proceeds later ∧ later.unspared = barred}.Finite := by
    refine resolver.table.finite_genericObjects.finite_subsets.subset ?_
    rintro barred ⟨later, proceeds, rfl⟩ head isBarred
    exact (proceeds.since intact judging).genericObjects_eq ▸ isBarred.1
  refine (ways.biUnion (t := fun barred => resolver.table.avoiding barred (resolver.table.tree id)) ?_).subset ?_
  · rintro barred ⟨later, proceeds, rfl⟩
    have since := proceeds.since intact judging
    obtain ⟨last, further, decided⟩ := exists_decided since.intact since.judging
    have sinceLater := further.since since.intact since.judging
    have sinceStart := (proceeds.trans further).since intact judging
    have finite := converges last (proceeds.trans further) decided id (has.extends_ sinceStart.learns.table)
    rw [decided.reach_eq, wellFormed.tree_extends sinceStart.learns.table has,
      sinceStart.unfolds.avoiding_eq wellFormed] at finite
    exact finite.subset (avoiding_mono (sinceLater.learns.unspared_subset sinceLater.genericObjects_eq.le))
  · rintro tree ⟨later, proceeds, inside⟩
    rw [(proceeds.since intact judging).unfolds.avoiding_eq wellFormed] at inside
    exact Set.mem_biUnion ⟨later, proceeds, rfl⟩ inside

/-- A resolver leaves what a type leads to only by further verdicts. -/
theorem encloses_prospect (intact : resolver.Intact) (judging : resolver.judging = []) (id : TypeId) :
    Encloses (resolver.prospect id)
      (fun later => later.table.avoiding later.unspared (resolver.table.tree id)) resolver.Proceeds where
  remains := remains_proceeds intact judging
  among proceeds _ inside := ⟨_, proceeds, inside⟩
  widens {first second} earlier proceeds learns := by
    have since := earlier.since intact judging
    have laterSince := proceeds.since intact judging
    have same : second.table.genericObjects = first.table.genericObjects :=
      laterSince.genericObjects_eq.trans since.genericObjects_eq.symm
    rw [since.unfolds.avoiding_eq intact.regular.toWellFormed, laterSince.unfolds.avoiding_eq intact.regular.toWellFormed]
    exact avoiding_mono (learns.unspared_subset same.le)
  closed proceeds judged inside _ isPart := by
    have wellFormed := (proceeds.since intact judging).intact.regular.toWellFormed
    exact inside.2.tail ⟨judged.avoids wellFormed, isPart⟩

theorem grounded_prospect (ready : resolver.Ready hooks) (intact : resolver.Intact) (judging : resolver.judging = [])
    (has : resolver.table.Has id) :
    resolver.Grounded hooks (resolver.prospect id)
      (fun later => later.table.avoiding later.unspared (resolver.table.tree id)) [id] where
  fenced := ⟨_, encloses_prospect intact judging id, .start⟩
  ready := ready
  inside := List.forall_mem_singleton.mpr ⟨has, .refl⟩

/-- Whatever is asked next, the resolver goes on. -/
theorem proceeds_leadsQueries (intact : resolver.Intact) (judging : resolver.judging = []) (hooks : Registry) :
    LeadsQueries hooks (Lasts fun later => later.Ready hooks ∧ resolver.Proceeds later)
      (Lasts fun later => later.Ready hooks ∧ resolver.Proceeds later) :=
  (persists_leadsQueries hooks).both (ready_leadsQueries hooks) fun _ _ persists readies holds =>
    ⟨readies holds.1, persists _ (remains_proceeds intact judging) holds.2⟩

/-- Every query about existing types is answered, and every one after it. -/
theorem Converges.query_settles (query : Query) (converges : resolver.Converges) (ready : resolver.Ready hooks)
    (intact : resolver.Intact) (judging : resolver.judging = []) (frozen : hooks.frozen = true)
    (has : ∀ id ∈ query.subjects, resolver.table.Has id) :
    Settles (fun _ later => later.Converges) (fun fuel => query.ask hooks fuel) resolver := by
  have settles : Settles (fun _ later => later.Ready hooks ∧ resolver.Proceeds later)
      (fun fuel => query.ask hooks fuel) resolver := by
    refine ResolveM.query_settles frozen (proceeds_leadsQueries intact judging hooks) ?_ ⟨ready, .start⟩
    rintro later id ⟨laterReady, proceeds⟩ isSubject
    have since := proceeds.since intact judging
    have laterHas := (has id isSubject).extends_ since.learns.table
    exact ⟨_, _, (converges.proceeds proceeds).finite_prospect since.intact since.judging laterHas,
      grounded_prospect laterReady since.intact since.judging laterHas⟩
  exact settles.mono fun _ _ _ _ holds => converges.proceeds holds.2

/-- Where objects are layered, none is judged both ways, whatever was asked before.  Then those that are
judged not to grow reach finitely many types.  Exactly if they do, every type does, and then every query
is answered, and every one after it. -/
theorem Serving.resolution_ends (serving : Serving hooks resolver) (frozen : hooks.frozen = true) :
    (∀ layer, resolver.table.Layered layer → resolver.JudgedOneWay) ∧
    (resolver.JudgedOneWay → resolver.HeadsConverge) ∧
    (resolver.HeadsConverge ↔ resolver.Converges) ∧
    (resolver.Converges → ∀ query : Query, (∀ id ∈ query.subjects, resolver.table.Has id) →
      Settles (fun _ later => later.Converges) (fun fuel => query.ask hooks fuel) resolver) := by
  have intact := serving.intact
  have judging := serving.judging
  refine ⟨fun _ => serving.judgedOneWay, fun oneWay => oneWay.headsConverge intact judging,
    ⟨fun heads => heads.converges intact judging, Converges.headsConverge⟩, fun converges query has => ?_⟩
  exact converges.query_settles query serving.ready intact judging frozen has

/-- Nodes over an item, with a wild part that holds ever deeper wild parts, and nodes of integers. -/
def wildTable : TypeTable :=
  TypeTable.after {} [.object "Wild" ["T"] {}, .object "Node" ["U"] {}, .int, .wrap .seq 2, .instantiate 1 [6],
    .wrap .seq 7, .define 1 { fields := [⟨"next", 8⟩] }, .instantiate 1 [4], .instantiate 3 [4], .wrap .ref 10,
    .define 3 { fields := [⟨"item", 4⟩, ⟨"wild", 9⟩, ⟨"rest", 11⟩] }, .instantiate 3 [5]]

theorem wildTable_built : wildTable.Built :=
  TypeTable.Built.empty.after (by decide +kernel)

/-- Only wild parts and nodes are declared with a body. -/
theorem wildTable_parts :
    (∀ id ∈ wildTable.ids, id ∈ [1, 2, 3, 4, 5] ∨ (wildTable.declared? id).isNone) ∧
    wildTable.constituentTrees (.node (.named 1) []) =
      [.node (.wrap .seq) [.node (.applied 1) [.node (.wrap .seq) [.node (.typevar 2) []]]]] ∧
    wildTable.constituentTrees (.node (.named 3) []) = [.node (.typevar 4) [], .node (.applied 1) [.node (.typevar 4) []],
      .node (.wrap .ref) [.node (.applied 3) [.node (.typevar 4) []]]] ∧
    wildTable.constituentTrees (.node (.named 2) []) = [] ∧ wildTable.constituentTrees (.node (.named 4) []) = [] ∧
    wildTable.constituentTrees (.node (.named 5) []) = [] := by
  refine ⟨by decide +kernel, ?_⟩
  cbv

/-- Nodes are made from wild parts, but not the other way round. -/
theorem wildTable_ranked : wildTable.Ranked Int.toNat := by
  obtain ⟨declared, wild, node, others⟩ := wildTable_parts
  intro id part isPart
  cases found : wildTable.declared? id with
  | none => simp [constituentTrees, found] at isPart
  | some type =>
      have listed := (has_of_get? (declared?_eq_some.mp found).1).mem_ids
      have known := (declared id listed).resolve_right (by simp [found])
      simp only [List.mem_cons, List.not_mem_nil, or_false] at known
      rcases known with rfl | rfl | rfl | rfl | rfl
      · rw [wild] at isPart
        obtain rfl := List.mem_singleton.mp isPart
        simp [below, TypeTree.head?]
      · simp [others] at isPart
      · rw [node] at isPart
        simp only [List.mem_cons, List.not_mem_nil, or_false] at isPart
        rcases isPart with rfl | rfl | rfl <;> simp [below, TypeTree.head?]
      · simp [others] at isPart
      · simp [others] at isPart

theorem resolution_ends_wild :
    Converges { table := wildTable } ∧ ∀ kind place, Settles (fun _ later => later.Converges)
      (fun fuel => (Query.expand 12 kind place).ask { frozen := true } fuel) { table := wildTable } := by
  have serving : Serving { frozen := true } { table := wildTable } := .start wildTable_built
  have has : (wildTable.get? 12).isSome = true := by decide +kernel
  obtain ⟨ofLayers, ofOneWay, ofHeads, ends⟩ := serving.resolution_ends rfl
  have layered := wildTable_ranked.layered wildTable_built.regular.toWellFormed
  have converges := ofHeads.mp (ofOneWay (ofLayers Int.toNat layered))
  exact ⟨converges, fun kind place => ends converges (.expand 12 kind place) (List.forall_mem_singleton.mpr has)⟩

end Asking

section Looping

variable {tree : TypeTree}

/-- A type is not held to be unresolvable if it is neither judged to grow nor contains itself. -/
theorem Serving.admits (serving : Serving hooks later)
    (spared : ∀ head, tree.head? = some head → later.growth.lookup head ≠ some true)
    (apart : ¬ Relation.TransGen later.table.ContainsDirectly tree tree) : later.Admits tree := by
  rintro id rfl held
  cases held with
  | grows judged _ _ =>
      obtain ⟨head, isHead, grows⟩ := judged.head_grows serving.intact.regular.toWellFormed
      exact spared head isHead grows
  | cyclic _ _ onCycle _ => exact apart (serving.truthful.cycles _ (mem_of_lookup onCycle)).2

/-- Objects that lead to ever deeper loops, through holders that also hold an object that grows. -/
def loopingTable : TypeTable :=
  TypeTable.after {} ([.object "Hold" ["T"] {}, .object "Grow" ["T"] {}, .object "Loop" ["T"] {}, .wrap .seq 2,
    .instantiate 3 [2], .define 1 { fields := [⟨"item", 7⟩, ⟨"rest", 8⟩] }, .wrap .seq 4] ++
    (List.range 15).map (fun level => .wrap .seq (9 + level)) ++
    [.instantiate 3 [24], .instantiate 5 [4], .define 3 { fields := [⟨"more", 25⟩, ⟨"link", 26⟩] },
      .wrap .seq 6, .instantiate 5 [27], .instantiate 1 [28], .define 5 { fields := [⟨"held", 29⟩] }])

/-- A sequence of what is spelled. -/
def sequence (inner : TypeTree) : TypeTree :=
  .node (.wrap .seq) [inner]

theorem loopingTable_built : loopingTable.Built :=
  TypeTable.Built.empty.after (by decide +kernel)

theorem loopingTable_objects : ∀ id ∈ [1, 3, 5], loopingTable.Has id := by
  unfold TypeTable.Has
  decide +kernel

theorem loopingTable_parts (arg : TypeTree) :
    loopingTable.tree 5 = .node (.named 5) [] ∧
    loopingTable.constituentTrees (.node (.named 5) []) =
      [.node (.applied 1) [.node (.applied 5) [sequence (.node (.typevar 6) [])]]] ∧
    loopingTable.constituentTrees (.node (.applied 1) [arg]) = [sequence arg, .node (.applied 3) [arg]] ∧
    loopingTable.constituentTrees (.node (.applied 3) [arg]) =
      [.node (.applied 3) [sequence^[16] arg], .node (.applied 5) [arg]] ∧
    loopingTable.constituentTrees (.node (.applied 5) [arg]) = [.node (.applied 1) [.node (.applied 5) [sequence arg]]] := by
  cbv
  exact ⟨rfl, rfl, rfl⟩

/-- A resolver that was asked whether a type has a finite structure. -/
def askedFor (id : TypeId) (resolver : Resolver) : Resolver :=
  ((Query.isUnresolvable id).ask { frozen := true } 20).finish resolver

/-- The resolver that was asked for the holders, for what grows and for the loops. -/
def loopedResolver : Resolver :=
  askedFor 5 (askedFor 3 (askedFor 1 { table := loopingTable }))

theorem loopedResolver_serving : Serving { frozen := true } loopedResolver :=
  (((Serving.start loopingTable_built).asked 20 (.isUnresolvable 1)).asked 20 (.isUnresolvable 3)).asked 20
    (.isUnresolvable 5)

/-- Loops were judged while holders were being judged, and so they are judged not to grow. -/
theorem loopedResolver_verdicts :
    loopedResolver.growth = [(1, false), (3, true), (5, false)] ∧
    [1, 3, 5].map (fun id => (isUnresolvable 20 id).result? loopedResolver) = [some false, some true, some false] := by
  decide +kernel

/-- The spellings among which the loops lead on by value. -/
inductive Looping : TypeTree → Prop where
  | start : Looping (.node (.named 5) [])
  | hold (arg : TypeTree) : Looping (.node (.applied 1) [arg])
  | grow (arg : TypeTree) : Looping (.node (.applied 3) [arg])
  | loop (arg : TypeTree) : Looping (.node (.applied 5) [arg])

/-- Something that grows from each of these spellings to the next. -/
def bulk (tree : TypeTree) : Nat :=
  3 * tree.depth + match tree.head? with
    | some 3 => 1
    | some 5 => 2
    | _ => 0

@[simp] theorem depth_sequence (arg : TypeTree) : (sequence arg).depth = arg.depth + 1 := by
  simp [sequence, TypeTree.depth]

theorem looping_parts {table : TypeTable} {owner : TypeTree} (extends_ : loopingTable.Extends table)
    (looping : Looping owner) : table.constituentTrees owner = loopingTable.constituentTrees owner := by
  obtain ⟨label, operands⟩ := owner
  refine loopingTable_built.regular.toWellFormed.constituentTrees_eq extends_ operands fun id isLabel => ?_
  have has : loopingTable.Has id := by
    refine loopingTable_objects id ?_
    cases looping <;> simp_all
  exact has.declared?_eq extends_

/-- By value, the loops lead to sequences and to what is larger. -/
theorem directly_looping {table : TypeTable} {owner part : TypeTree} (extends_ : loopingTable.Extends table)
    (looping : Looping owner) (directly : table.ContainsDirectly owner part) :
    part.enclosesParts = false ∨ Looping part ∧ bulk owner < bulk part := by
  obtain ⟨-, isPart⟩ := directly
  rw [looping_parts extends_ looping] at isPart
  cases looping with
  | start =>
      obtain ⟨-, ofStart, -⟩ := loopingTable_parts (.node .tuple [])
      rw [ofStart] at isPart
      obtain rfl := List.mem_singleton.mp isPart
      exact .inr ⟨.hold _, by simp [bulk, TypeTree.depth, TypeTree.head?]⟩
  | hold arg =>
      obtain ⟨-, -, ofHolder, -⟩ := loopingTable_parts arg
      rw [ofHolder] at isPart
      rcases List.mem_pair.mp isPart with rfl | rfl
      · exact .inl rfl
      · exact .inr ⟨.grow _, by simp [bulk, TypeTree.depth, TypeTree.head?]⟩
  | grow arg =>
      obtain ⟨-, -, -, ofGrowing, -⟩ := loopingTable_parts arg
      rw [ofGrowing] at isPart
      rcases List.mem_pair.mp isPart with rfl | rfl
      · exact .inr ⟨.grow _, by simp [bulk, TypeTree.depth, TypeTree.head?]⟩
      · exact .inr ⟨.loop _, by simp [bulk, TypeTree.depth, TypeTree.head?]⟩
  | loop arg =>
      obtain ⟨-, -, -, -, ofLoop⟩ := loopingTable_parts arg
      rw [ofLoop] at isPart
      obtain rfl := List.mem_singleton.mp isPart
      refine .inr ⟨.hold _, ?_⟩
      simp [bulk, TypeTree.depth, TypeTree.head?]
      omega

/-- No loop contains itself by value, and neither does what it is made from. -/
theorem not_contained_looping {table : TypeTable} {tree : TypeTree} (extends_ : loopingTable.Extends table)
    (looping : Looping tree) : ¬ Relation.TransGen table.ContainsDirectly tree tree := by
  have leads {other : TypeTree} (path : Relation.TransGen table.ContainsDirectly tree other) :
      other.enclosesParts = false ∨ Looping other ∧ bulk tree < bulk other := by
    induction path with
    | single directly => exact directly_looping extends_ looping directly
    | tail _ directly ih =>
        obtain closed | ⟨looping, larger⟩ := ih
        · rw [directly.1] at closed
          cases closed
        · refine (directly_looping extends_ looping directly).imp_right fun next => ⟨next.1, larger.trans next.2⟩
  intro path
  obtain closed | ⟨-, larger⟩ := leads path
  · cases looping <;> cases closed
  · exact lt_irrefl _ larger

/-- The loops over ever deeper sequences. -/
def deeperLoop (count : Nat) : TypeTree :=
  .node (.applied 5) [sequence^[count + 1] (.node (.typevar 6) [])]

theorem deeperLoop_injective : Function.Injective deeperLoop := by
  have deep (count : Nat) : (sequence^[count] (.node (.typevar 6) [])).depth = count := by
    induction count with
    | zero => simp [TypeTree.depth]
    | succ count ih => rw [Function.iterate_succ_apply', depth_sequence, ih]
  intro first second same
  have sameDepth := congrArg TypeTree.depth (List.cons.inj (TypeTree.node.inj same).2).1
  rw [deep, deep] at sameDepth
  exact Nat.succ.inj sameDepth

theorem askedFor_extends (id : TypeId) (resolver : Resolver) : resolver.Extends (askedFor id resolver) := by
  have extends_ : ((Query.isUnresolvable id).ask { frozen := true } 20).Preserves Extends :=
    Query.ask_leads (extends_leadsQueries { frozen := true }) 20 (.isUnresolvable id)
  exact extends_.finish resolver

theorem loopingTable_extends : loopingTable.Extends loopedResolver.table :=
  (((askedFor_extends 1 { table := loopingTable }).trans (askedFor_extends 3 _)).trans (askedFor_extends 5 _)).table

theorem admits_looping (serving : Serving { frozen := true } later) (extends_ : loopedResolver.Extends later)
    (looping : Looping tree) (notGrow : tree.head? ≠ some 3) : later.Admits tree := by
  refine serving.admits (fun head isHead grows => ?_)
    (not_contained_looping (loopingTable_extends.trans extends_.table) looping)
  have known := extends_.growth head false
  rw [loopedResolver_verdicts.1] at known
  cases looping with
  | grow arg => exact notGrow rfl
  | _ =>
      obtain rfl := Option.some.inj isHead
      cases grows.symm.trans (known rfl)

theorem tree_loop (extends_ : loopedResolver.Extends later) : later.table.tree 5 = .node (.named 5) [] := by
  rw [loopingTable_built.regular.toWellFormed.tree_extends (loopingTable_extends.trans extends_.table)
    (loopingTable_objects 5 (by simp))]
  exact (loopingTable_parts (.node .tuple [])).1

theorem loop_not_held (serving : Serving { frozen := true } later) (extends_ : loopedResolver.Extends later) :
    ¬ later.Held 5 :=
  admits_looping serving extends_ .start (by simp [TypeTree.head?]) 5 (tree_loop extends_)

/-- Whatever is asked later, an operation on loops depends on all of those over deeper sequences. -/
theorem infinite_dependence_loop (serving : Serving { frozen := true } later)
    (extends_ : loopedResolver.Extends later) (kind : OpKind) : (later.dependence kind 5).Infinite := by
  have larger := loopingTable_extends.trans extends_.table
  have leadsOn {owner part : TypeTree} (inside : owner ∈ later.dependence kind 5) (looping : Looping owner)
      (notGrow : owner.head? ≠ some 3) (takes : owner.takesPart kind = true)
      (isPart : part ∈ loopingTable.constituentTrees owner) : part ∈ later.dependence kind 5 :=
    inside.tail ⟨admits_looping serving extends_ looping notGrow, takes, looping_parts larger looping ▸ isPart⟩
  have fromHolder {arg : TypeTree} (inside : .node (.applied 1) [arg] ∈ later.dependence kind 5) :
      arg ∈ later.dependence kind 5 := by
    obtain ⟨-, -, ofHolder, -⟩ := loopingTable_parts arg
    have items : sequence arg ∈ later.dependence kind 5 :=
      leadsOn inside (.hold arg) (by simp [TypeTree.head?]) rfl (by simp [ofHolder])
    refine items.tail ⟨serving.admits (fun head isHead => by cases isHead) fun path => ?_, rfl, List.mem_singleton_self arg⟩
    obtain ⟨next, directly, _⟩ := Relation.TransGen.head'_iff.mp path
    cases directly.1
  refine Set.infinite_of_injective_forall_mem deeperLoop_injective fun count => ?_
  induction count with
  | zero =>
      obtain ⟨-, ofStart, -⟩ := loopingTable_parts (.node .tuple [])
      have start : .node (.named 5) [] ∈ later.dependence kind 5 := tree_loop extends_ ▸ Relation.ReflTransGen.refl
      exact fromHolder (leadsOn start .start (by simp [TypeTree.head?]) rfl (by simp [ofStart, deeperLoop]))
  | succ count ih =>
      obtain ⟨-, -, -, -, ofLoop⟩ := loopingTable_parts (sequence^[count + 1] (.node (.typevar 6) []))
      refine fromHolder (leadsOn ih (.loop _) (by simp [deeperLoop, TypeTree.head?]) rfl ?_)
      rw [deeperLoop, ofLoop, deeperLoop, Function.iterate_succ_apply' sequence (count + 1)]
      exact List.mem_singleton_self _

theorem resolve_loop_endless {fuel : Nat} {kind : OpKind} {operation : Operation} {final : Resolver}
    (serving : Serving { frozen := true } later) (extends_ : loopedResolver.Extends later) :
    resolve { frozen := true } fuel 5 kind later ≠ .ok operation final := by
  intro run
  have has : later.table.Has 5 :=
    (loopingTable_objects 5 (by simp)).extends_ (loopingTable_extends.trans extends_.table)
  have finite := finite_dependence_of_resolve serving.ready serving.intact has (by simp) run
  have further := ((extends_leadsQueries _).resolves fuel 5 kind).of_ok run
  exact infinite_dependence_loop (serving.asked_resolve run) (extends_.trans further) kind finite

/-- Loops are resolved by no budget: they were judged while holders were, so they lead on for ever
through holders, and no verdict cuts that off. -/
theorem loop_resolved_endlessly :
    Serving { frozen := true } loopedResolver ∧
    loopedResolver.growth = [(1, false), (3, true), (5, false)] ∧
    [1, 3, 5].map (fun id => (isUnresolvable 20 id).result? loopedResolver) = [some false, some true, some false] ∧
    (∀ later, Serving { frozen := true } later → loopedResolver.Extends later →
      ∀ kind, (later.dependence kind 5).Infinite) ∧
    ¬ loopedResolver.Converges ∧
    ∀ fuel kind place,
      (resolve { frozen := true } fuel 5 kind).result? loopedResolver = none ∧
      (expand { frozen := true } fuel 5 kind place).result? loopedResolver = none ∧
      (copyPlan { frozen := true } fuel 5 place).result? loopedResolver = none := by
  have serving := loopedResolver_serving
  refine ⟨serving, loopedResolver_verdicts.1, loopedResolver_verdicts.2,
    fun later => infinite_dependence_loop, fun converges => ?_, fun fuel kind place => ⟨?_, ?_, ?_⟩⟩
  · have has := (loopingTable_objects 5 (by simp)).extends_ loopingTable_extends
    obtain ⟨_, _, _, answers⟩ := converges.query_settles (.resolve 5 .destroy) serving.ready serving.intact
      serving.judging rfl (List.forall_mem_singleton.mpr has)
    obtain ⟨fuel, run⟩ := answers.exists
    obtain ⟨operation, later, resolving, _⟩ := bind_eq_ok.mp run
    exact resolve_loop_endless serving (.refl _) resolving
  · exact result?_eq_none fun operation final => resolve_loop_endless serving (.refl _)
  · refine result?_eq_none fun nodes final run => ?_
    cases fuel with
    | zero => cases run
    | succ fuel =>
        obtain ⟨operation, later, resolving, _⟩ := bind_eq_ok.mp run
        exact resolve_loop_endless serving (.refl _) resolving
  · refine result?_eq_none fun nodes final run => ?_
    cases fuel with
    | zero => cases run
    | succ fuel =>
        obtain ⟨answer, asked, asking, rest⟩ := bind_eq_ok.mp run
        have extends_ := ((isUnresolvable_consults fuel 5).of_ok asking).toExtends
        have askedServing := serving.asked_isUnresolvable asking
        cases answer with
        | true => exact loop_not_held askedServing extends_ (held_of_answer serving.ready.idle asking)
        | false =>
            obtain ⟨operation, later, resolving, _⟩ := bind_eq_ok.mp rest
            exact resolve_loop_endless askedServing extends_ resolving

end Looping
end Resolver
end LifecycleHooks

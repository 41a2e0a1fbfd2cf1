import LifecycleHooks.Proofs.Budget
import LifecycleHooks.Proofs.Types.Bodies
import LifecycleHooks.Proofs.Types.Layers

/-!
# Looking up fields

A field is looked for in a type, then in its base, in the base of that, and so on.  The
bases of an instance are spelled by putting its arguments into the base of the generic
object, so that a chain of bases may go on for ever with types that were never seen
before.  A look-up ends exactly when some type of the chain has the field, or when the
chain has finitely many types; then it answers with the nearest field, and otherwise it
uses up every budget.
-/

namespace LifecycleHooks

/-- Whether an operation declares an object, gives an object its body or makes an instance. -/
def TableCall.buildsObjects : TableCall → Bool
  | .object .. | .define .. | .instantiate .. => true
  | _ => false

namespace TypeTable

open Attempt

/-- The base that a type has by its spelling. -/
def baseTree? (table : TypeTable) (tree : TypeTree) : Option TypeTree :=
  (table.bodyTrees tree).lookup .base

/-- What a type holds by its spelling in a field that it does not inherit. -/
def ownField? (table : TypeTable) (name : String) (tree : TypeTree) : Option TypeTree :=
  (table.bodyTrees tree).lookup (.field name)

/-- The type that is reached from another one when bases are followed so many times. -/
def ancestor? (table : TypeTable) (start : TypeTree) : Nat → Option TypeTree
  | 0 => some start
  | count + 1 => (table.ancestor? start count).bind table.baseTree?

/-- The types of a chain of bases. -/
def ancestors (table : TypeTable) (start : TypeTree) : Set TypeTree :=
  {tree | ∃ count, table.ancestor? start count = some tree}

/-- A type is what the first of a chain of bases that has a field of this name holds in it. -/
def IsNearestField (table : TypeTable) (name : String) (start type : TypeTree) : Prop :=
  ∃ count owner, table.ancestor? start count = some owner ∧ table.ownField? name owner = some type ∧
    ∀ before < count, ∀ tree, table.ancestor? start before = some tree → table.ownField? name tree = none

/-- A chain of bases has a field of this name, or does not go on for ever with new types. -/
def LookupEnds (table : TypeTable) (name : String) (start : TypeTree) : Prop :=
  (∃ type, table.IsNearestField name start type) ∨ (table.ancestors start).Finite

/-- The right answer to a look-up: the type of the nearest field, or nothing where no type
of the chain has such a field. -/
def FieldAnswer (table : TypeTable) (name : String) (start : TypeTree) (later : TypeTable) :
    Option TypeId → Prop
  | some type => later.Has type ∧ table.IsNearestField name start (later.tree type)
  | none => ∀ tree ∈ table.ancestors start, table.ownField? name tree = none

variable {table later : TypeTable} {name : String} {start : TypeTree} {seen : List TypeId} {id : TypeId}

section Chains

theorem lookup_field (table : TypeTable) (body : Body) (name : String) :
    (table.spelledSlots body).lookup (.field name) =
      (body.fields.find? (·.name = name)).map fun field => table.tree field.type := by
  obtain ⟨fields, base⟩ := body
  have inFields : ((fields.map fun field => (Step.field field.name, table.tree field.type))).lookup (.field name) =
      (fields.find? (·.name = name)).map fun field => table.tree field.type := by
    induction fields with
    | nil => rfl
    | cons field fields ih =>
        by_cases same : field.name = name
        · simp [same]
        · have differ : (Step.field name == Step.field field.name) = false := by
            simpa using fun equal => same equal.symm
          simp [same, List.lookup_cons, differ, ih]
  cases base with
  | none => simpa [spelledSlots, Body.slots, Function.comp_def] using inFields
  | some base =>
      have differ : (Step.field name == Step.base) = false := rfl
      simpa [spelledSlots, Body.slots, Function.comp_def, List.lookup_cons, differ] using inFields

theorem lookup_base (table : TypeTable) (body : Body) :
    (table.spelledSlots body).lookup .base = body.base.map table.tree := by
  obtain ⟨fields, base⟩ := body
  cases base with
  | none => simp [spelledSlots, Body.slots, List.lookup_eq_none_iff]
  | some base => simp [spelledSlots, Body.slots]

/-- After a type without a base there are no further ones. -/
theorem ancestor?_none_of_le {count : Nat} (ends : table.ancestor? start count = none) :
    ∀ more, count ≤ more → table.ancestor? start more = none := by
  intro more enough
  induction more, enough using Nat.le_induction with
  | base => exact ends
  | succ more _ ih => simp [ancestor?, ih]

/-- A chain that comes back to a type goes round from there on. -/
theorem ancestor?_returns {count before : Nat} (earlier : before < count)
    (same : table.ancestor? start count = table.ancestor? start before) (more : Nat) :
    ∃ first < count, table.ancestor? start more = table.ancestor? start first := by
  induction more with
  | zero => exact ⟨0, by omega, rfl⟩
  | succ more ih =>
      obtain ⟨first, inside, equal⟩ := ih
      have next : table.ancestor? start (more + 1) = table.ancestor? start (first + 1) := by
        simp only [ancestor?, equal]
      by_cases last : first + 1 < count
      · exact ⟨first + 1, last, next⟩
      · obtain rfl : first + 1 = count := by omega
        exact ⟨before, earlier, next.trans same⟩

/-- A chain is finite when all its types are among the first ones. -/
theorem finite_ancestors (count : Nat)
    (among : ∀ more tree, table.ancestor? start more = some tree →
      ∃ first < count, table.ancestor? start first = some tree) : (table.ancestors start).Finite := by
  refine ((Set.finite_lt_nat count).image fun first => (table.ancestor? start first).getD start).subset ?_
  rintro tree ⟨more, isAncestor⟩
  obtain ⟨first, inside, same⟩ := among more tree isAncestor
  exact ⟨first, inside, by simp [same]⟩

end Chains

/-- How far a look-up has got: it follows the chain of bases, and has seen each earlier type
of the chain once and no field of the name there. -/
structure Walk (table : TypeTable) (name : String) (start : TypeTree) (seen : List TypeId) (id : TypeId)
    (later : TypeTable) : Prop where
  faithful : later.Faithful
  unfolds : table.Unfolds later
  has : later.Has id
  here : table.ancestor? start seen.length = some (later.tree id)
  known : ∀ other ∈ seen, later.Has other
  trees : ∀ tree, tree ∈ seen.map later.tree ↔ ∃ count < seen.length, table.ancestor? start count = some tree
  once : seen.Nodup
  without : ∀ other ∈ seen, table.ownField? name (later.tree other) = none

section Walking

theorem Faithful.walk (faithful : table.Faithful) (has : table.Has id) (name : String) :
    table.Walk name (table.tree id) [] id table where
  faithful := faithful
  unfolds := .refl table
  has := has
  here := rfl
  known := by simp
  trees := by simp
  once := List.nodup_nil
  without := by simp

/-- No type that was passed has the field. -/
theorem Walk.passed (walk : table.Walk name start seen id later) {count : Nat} {tree : TypeTree}
    (before : count < seen.length) (isAncestor : table.ancestor? start count = some tree) :
    table.ownField? name tree = none := by
  obtain ⟨other, member, rfl⟩ := List.mem_map.mp ((walk.trees tree).mpr ⟨count, before, isAncestor⟩)
  exact walk.without other member

/-- A walk that comes back to a type has seen the whole chain. -/
theorem Walk.returns (walk : table.Walk name start seen id later) (back : id ∈ seen) :
    (table.ancestors start).Finite ∧ table.FieldAnswer name start later none := by
  obtain ⟨before, earlier, same⟩ := (walk.trees (later.tree id)).mp (List.mem_map_of_mem back)
  have round := ancestor?_returns earlier (walk.here.trans same.symm)
  constructor
  · refine finite_ancestors seen.length fun more tree isAncestor => ?_
    obtain ⟨first, inside, equal⟩ := round more
    exact ⟨first, inside, equal.symm.trans isAncestor⟩
  · rintro tree ⟨more, isAncestor⟩
    obtain ⟨first, inside, equal⟩ := round more
    exact walk.passed inside (equal.symm.trans isAncestor)

/-- The next step of a walk asks for a body, which is spelled as the chain says. -/
theorem Walk.asks (walk : table.Walk name start seen id later) (wellFormed : table.WellFormed) :
    ∃ result larger, TableM.body id later = .ok result larger ∧ larger.Faithful ∧ later.Unfolds larger ∧
      table.ownField? name (later.tree id) =
        (result.fields.find? (·.name = name)).map (fun field => larger.tree field.type) ∧
      table.ancestor? start (seen.length + 1) = result.base.map larger.tree ∧
      ∀ slot ∈ result.slots, larger.Has slot.type := by
  obtain ⟨result, larger, run, faithful, unfolds, spelled, hasSlots⟩ := TableM.body_spells walk.faithful walk.has
  rw [wellFormed.bodyTrees_unfolds walk.unfolds] at spelled
  refine ⟨result, larger, run, faithful, unfolds, ?_, ?_, hasSlots⟩
  · rw [ownField?, ← spelled, lookup_field]
  · rw [ancestor?, walk.here, Option.bind_some, baseTree?, ← spelled, lookup_base]

/-- A walk goes on to the base of a type without the field. -/
theorem Walk.step (walk : table.Walk name start seen id later) {larger : TypeTable} {base : TypeId}
    (faithful : larger.Faithful) (unfolds : later.Unfolds larger) (new : id ∉ seen)
    (without : table.ownField? name (later.tree id) = none) (hasBase : larger.Has base)
    (isBase : table.ancestor? start (seen.length + 1) = some (larger.tree base)) :
    table.Walk name start (id :: seen) base larger := by
  have sameTree {other : TypeId} (has : later.Has other) : larger.tree other = later.tree other :=
    walk.faithful.toWellFormed.tree_extends unfolds.extends_ has
  have sameTrees : (id :: seen).map larger.tree = later.tree id :: seen.map later.tree := by
    rw [List.map_cons, sameTree walk.has, List.map_congr_left fun other member => sameTree (walk.known other member)]
  constructor
  case faithful => exact faithful
  case unfolds => exact walk.unfolds.trans unfolds
  case has => exact hasBase
  case here => exact isBase
  case known =>
    exact List.forall_mem_cons.mpr ⟨walk.has.extends_ unfolds.extends_,
      fun other member => (walk.known other member).extends_ unfolds.extends_⟩
  case trees =>
    intro tree
    rw [sameTrees, List.mem_cons, walk.trees, List.length_cons]
    constructor
    · rintro (rfl | ⟨count, before, isAncestor⟩)
      · exact ⟨seen.length, by omega, walk.here⟩
      · exact ⟨count, by omega, isAncestor⟩
    · rintro ⟨count, before, isAncestor⟩
      by_cases last : count = seen.length
      · subst last
        exact .inl (Option.some.inj (isAncestor.symm.trans walk.here))
      · exact .inr ⟨count, by omega, isAncestor⟩
  case once => exact List.nodup_cons.mpr ⟨new, walk.once⟩
  case without =>
    refine List.forall_mem_cons.mpr ⟨(sameTree walk.has).symm ▸ without, fun other member => ?_⟩
    rw [sameTree (walk.known other member)]
    exact walk.without other member

/-- A walk that meets the field has found the nearest one. -/
theorem Walk.finds (walk : table.Walk name start seen id later) {type : TypeTree}
    (found : table.ownField? name (later.tree id) = some type) : table.IsNearestField name start type :=
  ⟨seen.length, later.tree id, walk.here, found, fun _ before _ isAncestor => walk.passed before isAncestor⟩

/-- A walk that meets a type without a base has seen the whole chain. -/
theorem Walk.ends (walk : table.Walk name start seen id later)
    (without : table.ownField? name (later.tree id) = none)
    (noBase : table.ancestor? start (seen.length + 1) = none) :
    (table.ancestors start).Finite ∧ table.FieldAnswer name start later none := by
  have inside {count : Nat} {tree : TypeTree} (isAncestor : table.ancestor? start count = some tree) :
      count < seen.length + 1 := by
    by_contra behind
    rw [ancestor?_none_of_le noBase count (by omega)] at isAncestor
    cases isAncestor
  constructor
  · exact finite_ancestors (seen.length + 1) fun count tree isAncestor => ⟨count, inside isAncestor, isAncestor⟩
  · rintro tree ⟨count, isAncestor⟩
    by_cases last : count = seen.length
    · subst last
      rw [walk.here] at isAncestor
      rwa [← Option.some.inj isAncestor]
    · exact walk.passed (by have := inside isAncestor; omega) isAncestor

/-- A walk that has passed as many types as a finite chain has is over. -/
theorem Walk.length_le (walk : table.Walk name start seen id later)
    (finite : (table.ancestors start).Finite) : seen.length ≤ (table.ancestors start).ncard := by
  refine walk.faithful.toWellFormed.length_le_ncard finite walk.once fun other member => ⟨walk.known other member, ?_⟩
  obtain ⟨before, -, isAncestor⟩ := (walk.trees (later.tree other)).mp (List.mem_map_of_mem member)
  exact ⟨before, isAncestor⟩

/-- A walk is not past the nearest field. -/
theorem Walk.le_nearest (walk : table.Walk name start seen id later) {count : Nat} {owner type : TypeTree}
    (isAncestor : table.ancestor? start count = some owner) (found : table.ownField? name owner = some type) :
    seen.length ≤ count := by
  by_contra behind
  rw [walk.passed (by omega) isAncestor] at found
  cases found

end Walking
end TypeTable

namespace TableM

open TypeTable Attempt

variable {table later final : TypeTable} {name : String} {start : TypeTree} {seen : List TypeId} {id : TypeId}
  {fuel : Nat}

section Looking

/-- One step of a look-up answers rightly, where there is an end to come to, or goes on
along the chain. -/
theorem fieldTypeFrom_step (walk : table.Walk name start seen id later) (wellFormed : table.WellFormed) :
    (∃ found larger, table.LookupEnds name start ∧ table.FieldAnswer name start larger found ∧
      ∀ fuel, fieldTypeFrom name (fuel + 1) seen id later = .ok found larger) ∨
    ∃ base larger, table.Walk name start (id :: seen) base larger ∧
      ∀ fuel, fieldTypeFrom name (fuel + 1) seen id later = fieldTypeFrom name fuel (id :: seen) base larger := by
  simp only [fieldTypeFrom]
  by_cases back : id ∈ seen
  · obtain ⟨finite, answer⟩ := walk.returns back
    exact .inl ⟨none, later, .inr finite, answer, fun _ => by rw [if_pos back, pure_run]⟩
  · obtain ⟨result, larger, asked, faithful, unfolds, own, base, hasSlots⟩ := walk.asks wellFormed
    simp only [if_neg back, bind_run_of_ok asked]
    cases isField : result.fields.find? (·.name = name) with
    | some field =>
        rw [isField] at own
        have nearest := walk.finds own
        have member : (⟨.field field.name, field.type⟩ : Slot) ∈ result.slots :=
          List.mem_append_right _ (List.mem_map_of_mem (List.mem_of_find?_eq_some isField))
        exact .inl ⟨some field.type, larger, .inl ⟨_, nearest⟩, ⟨hasSlots _ member, nearest⟩, fun _ => rfl⟩
    | none =>
        rw [isField] at own
        cases isBase : result.base with
        | some next =>
            rw [isBase] at base
            have hasBase : larger.Has next := hasSlots ⟨.base, next⟩ (by simp [Body.slots, isBase])
            exact .inr ⟨next, larger, walk.step faithful unfolds back own hasBase base, fun _ => rfl⟩
        | none =>
            rw [isBase] at base
            obtain ⟨finite, answer⟩ := walk.ends own base
            exact .inl ⟨none, larger, .inr finite, answer, fun _ => rfl⟩

/-- A look-up that ends answers rightly, and there was an end to come to. -/
theorem fieldTypeFrom_answers (walk : table.Walk name start seen id later) (wellFormed : table.WellFormed)
    {found : Option TypeId} (run : fieldTypeFrom name fuel seen id later = .ok found final) :
    table.LookupEnds name start ∧ table.FieldAnswer name start final found := by
  induction fuel generalizing seen id later with
  | zero => cases run
  | succ fuel ih =>
      obtain ⟨_, _, ends, answer, answers⟩ | ⟨_, _, further, goesOn⟩ := fieldTypeFrom_step walk wellFormed
      · obtain ⟨rfl, rfl⟩ := EStateM.Result.ok.inj ((answers fuel).symm.trans run)
        exact ⟨ends, answer⟩
      · exact ih further ((goesOn fuel).symm.trans run)

/-- A look-up fails only when the budget is used up, and then it is that far along the chain. -/
theorem fieldTypeFrom_fails (walk : table.Walk name start seen id later) (wellFormed : table.WellFormed)
    {fault : Fault} (run : fieldTypeFrom name fuel seen id later = .error fault final) :
    fault = .exhausted ∧
      ∃ passed last, table.Walk name start passed last final ∧ passed.length = seen.length + fuel := by
  induction fuel generalizing seen id later with
  | zero =>
      obtain ⟨rfl, rfl⟩ := EStateM.Result.error.inj run
      exact ⟨rfl, seen, id, walk, rfl⟩
  | succ fuel ih =>
      obtain ⟨_, _, -, -, answers⟩ | ⟨_, _, further, goesOn⟩ := fieldTypeFrom_step walk wellFormed
      · cases (answers fuel).symm.trans run
      · obtain ⟨isExhausted, passed, last, walked, sameLength⟩ := ih further ((goesOn fuel).symm.trans run)
        exact ⟨isExhausted, passed, last, walked, by rw [sameLength, List.length_cons]; omega⟩

theorem fieldTypeFrom_steady (name : String) (seen : List TypeId) (id : TypeId) :
    Steady fun fuel => fieldTypeFrom name fuel seen id := by
  intro fuel more enough
  induction fuel generalizing more seen id with
  | zero => exact refines_throw _ _
  | succ fuel ih =>
      obtain ⟨more, rfl⟩ : ∃ less, more = less + 1 := ⟨more - 1, by omega⟩
      simp only [fieldTypeFrom]
      split
      · exact Refines.refl _
      · apply (Refines.refl _).bind
        intro found
        split
        · exact Refines.refl _
        · exact ih _ _ more (by omega)
        · exact Refines.refl _

end Looking

/-- A look-up that has no end to come to uses up every budget. -/
theorem fieldType?_exhausts (faithful : table.Faithful) (has : table.Has id)
    (endless : ¬ table.LookupEnds name (table.tree id)) (fuel : Nat) :
    ∃ later, fieldType? fuel id name table = .error .exhausted later := by
  have walk := faithful.walk has name
  cases run : fieldType? fuel id name table with
  | ok found later => exact absurd (fieldTypeFrom_answers walk faithful.toWellFormed run).1 endless
  | error fault later =>
      obtain ⟨rfl, -⟩ := fieldTypeFrom_fails walk faithful.toWellFormed run
      exact ⟨later, rfl⟩

/-- A look-up that has an end to come to needs a budget for the chain up to there only. -/
theorem fieldType?_bounded (faithful : table.Faithful) (has : table.Has id)
    (ends : table.LookupEnds name (table.tree id)) :
    ∃ bound, ∀ fuel, bound < fuel → ∃ found later, fieldType? fuel id name table = .ok found later := by
  have walk := faithful.walk has name
  have far {fuel : Nat} {fault : Fault} {later : TypeTable} (run : fieldType? fuel id name table = .error fault later) :
      ∃ passed last, table.Walk name (table.tree id) passed last later ∧ passed.length = fuel := by
    obtain ⟨-, passed, last, walked, sameLength⟩ := fieldTypeFrom_fails walk faithful.toWellFormed run
    exact ⟨passed, last, walked, by simpa using sameLength⟩
  rcases ends with ⟨type, count, owner, isAncestor, isField, -⟩ | finite
  · refine ⟨count, fun fuel enough => ?_⟩
    cases run : fieldType? fuel id name table with
    | ok found later => exact ⟨found, later, rfl⟩
    | error fault later =>
        obtain ⟨passed, last, walked, rfl⟩ := far run
        exact absurd (walked.le_nearest isAncestor isField) (by omega)
  · refine ⟨(table.ancestors (table.tree id)).ncard, fun fuel enough => ?_⟩
    cases run : fieldType? fuel id name table with
    | ok found later => exact ⟨found, later, rfl⟩
    | error fault later =>
        obtain ⟨passed, last, walked, rfl⟩ := far run
        exact absurd (walked.length_le finite) (by omega)

end TableM

namespace TypeTable

open Attempt TypeTree

variable {table : TypeTable} {id : TypeId}

section Shallow

/-- The bases of generic objects put no type parameter inside a further type. -/
def ShallowBases (table : TypeTable) : Prop :=
  ∀ id object base, table.get? id = some (.object object) → object.body.base = some base →
    ∀ label operands, table.tree base = .node label operands → ∀ operand ∈ operands,
      operand.depth = 0 ∨ ∀ args, operand.substitute (assignment object.params args) = operand

theorem mem_constituentTrees {tree : TypeTree} {slot : Step × TypeTree} (member : slot ∈ table.bodyTrees tree) :
    slot.2 ∈ table.constituentTrees tree := by
  obtain ⟨label, operands⟩ := tree
  cases label with
  | named id =>
      simp only [bodyTrees, constituentTrees] at member ⊢
      split at member
      · rename_i object found
        obtain ⟨other, inside, rfl⟩ := List.mem_map.mp member
        simpa only [found] using List.mem_map_of_mem inside
      · cases member
  | applied head =>
      simp only [bodyTrees, constituentTrees] at member ⊢
      split at member
      · rename_i object found
        obtain ⟨other, inside, rfl⟩ := List.mem_map.mp member
        simpa only [found] using List.mem_map_of_mem inside
      · cases member
  | _ => cases member

/-- Arguments that are put into a base without nesting do not make it deeper. -/
theorem depth_substitute_shallow {params : List TypeId} {base : TypeTree} {args : List TypeTree} {bound : Nat}
    (shallow : ∀ label operands, base = .node label operands → ∀ operand ∈ operands,
      operand.depth = 0 ∨ ∀ args, operand.substitute (assignment params args) = operand)
    (within : base.depth ≤ bound + 1) (inside : ∀ arg ∈ args, arg.depth ≤ bound) :
    (base.substitute (assignment params args)).depth ≤ bound + 1 := by
  have bounded : ∀ id tree, assignment params args id = some tree → tree.depth ≤ bound := fun id tree assigned =>
    inside tree (List.of_mem_zip (mem_of_lookup assigned)).2
  obtain ⟨label, operands⟩ := base
  have deeper : ∀ operand ∈ operands, (operand.substitute (assignment params args)).depth < bound + 1 := by
    intro operand member
    rcases shallow label operands rfl operand member with leaf | closed
    · have := depth_substitute_le bounded operand
      omega
    · rw [closed args]
      have := depth_le.mp within operand member
      omega
  by_cases variable_ : ∃ id, label = .typevar id
  · obtain ⟨id, rfl⟩ := variable_
    rw [TypeTree.substitute]
    cases assigned : assignment params args id with
    | none => exact within
    | some tree => exact Nat.le_succ_of_le (bounded id tree assigned)
  · rw [substitute_node fun id same => variable_ ⟨id, same⟩]
    refine depth_le.mpr fun operand member => ?_
    obtain ⟨before, inOperands, rfl⟩ := List.mem_map.mp member
    exact deeper before inOperands

theorem base_of_slot {body : Body} {slot : Slot} (member : slot ∈ body.slots) (isBase : slot.step = .base) :
    body.base = some slot.type := by
  rcases List.mem_append.mp member with base | field
  · obtain ⟨type, inside, rfl⟩ := List.mem_map.mp base
    exact Option.mem_toList.mp inside
  · obtain ⟨field, -, rfl⟩ := List.mem_map.mp field
    cases isBase

theorem ShallowBases.depth_base_le (shallow : table.ShallowBases) (wellFormed : table.WellFormed) {bound : Nat}
    (large : table.size ≤ bound) {tree base : TypeTree} (within : tree.depth ≤ bound + 1)
    (isBase : table.baseTree? tree = some base) : base.depth ≤ bound + 1 := by
  have member := mem_of_lookup isBase
  have declared {id : TypeId} {object : ObjectType} {slot : Slot} (found : table.get? id = some (.object object))
      (inside : slot ∈ object.body.slots) : (table.tree slot.type).depth ≤ bound + 1 :=
    (wellFormed.depth_tree_le_size (wellFormed.bodies id object found slot inside)).trans (by omega)
  obtain ⟨label, operands⟩ := tree
  cases label with
  | named id =>
      simp only [bodyTrees] at member
      split at member
      · rename_i object found
        obtain ⟨slot, inside, same⟩ := List.mem_map.mp member
        obtain ⟨-, rfl⟩ := Prod.mk.inj same
        exact declared (declared?_eq_some.mp found).1 inside
      · cases member
  | applied head =>
      simp only [bodyTrees] at member
      split at member
      · rename_i object found
        obtain ⟨slot, inside, same⟩ := List.mem_map.mp member
        obtain ⟨step, rfl⟩ := Prod.mk.inj same
        have isHead := (declared?_eq_some.mp found).1
        exact depth_substitute_shallow (shallow head object slot.type isHead (base_of_slot inside step))
          (declared isHead inside) fun arg member => Nat.le_of_lt_succ (depth_le.mp within arg member)
      · cases member
  | _ => cases member

/-- Where the bases of generic objects put no type parameter inside a further type, every
look-up ends. -/
theorem ShallowBases.lookupEnds (shallow : table.ShallowBases) (wellFormed : table.WellFormed)
    (has : table.Has id) (name : String) : table.LookupEnds name (table.tree id) := by
  refine .inr ((finite_isOver table.finite_shapes (table.size + 1)).subset ?_)
  rintro tree ⟨count, isAncestor⟩
  induction count generalizing tree with
  | zero =>
      obtain rfl := Option.some.inj isAncestor
      exact ⟨wellFormed.tree_isOver has, (wellFormed.depth_tree_le_size has).trans (Nat.le_succ _)⟩
  | succ count ih =>
      obtain ⟨owner, before, isBase⟩ := Option.bind_eq_some_iff.mp isAncestor
      obtain ⟨isOver, within⟩ := ih before
      exact ⟨wellFormed.isOver_constituent isOver tree (mem_constituentTrees (mem_of_lookup isBase)),
        shallow.depth_base_le wellFormed le_rfl within isBase⟩

end Shallow

section Cases

open TypeTree

/-- The base of `W[T]` is `W[W[T]]`. -/
def endlessCalls : List TableCall :=
  [.object "W" ["T"] {}, .instantiate 1 [2], .instantiate 1 [3], .define 1 { base := some 4 }]

def endlessTable : TypeTable := after {} endlessCalls

theorem endlessTable_built : endlessTable.Built := Built.empty.after (by decide +kernel)

/-- The type variable `T` inside so many `W`. -/
def wrapped : Nat → TypeTree
  | 0 => .node (.typevar 2) []
  | count + 1 => .node (.applied 1) [wrapped count]

theorem depth_wrapped (count : Nat) : (wrapped count).depth = count := by
  induction count with
  | zero => simp [wrapped, TypeTree.depth]
  | succ count ih => simp [wrapped, TypeTree.depth, ih]

theorem tree_endlessTable :
    endlessTable.tree 3 = wrapped 1 ∧ endlessTable.tree 4 = wrapped 2 := by
  have wellFormed := endlessTable_built.regular.toWellFormed
  have isVariable : endlessTable.get? 2 = some (.typevar "T") := by decide +kernel
  have inner : endlessTable.get? 3 = some (.applied 1 [2]) := by decide +kernel
  have outer : endlessTable.get? 4 = some (.applied 1 [3]) := by decide +kernel
  simp [wellFormed.tree_eq isVariable, wellFormed.tree_eq inner, wellFormed.tree_eq outer, wrapped,
    TypeDef.label, TypeDef.operands]

theorem bodyTrees_wrapped (count : Nat) :
    endlessTable.bodyTrees (wrapped (count + 1)) = [(.base, wrapped (count + 2))] := by
  have isHead : endlessTable.declared? 1 = some (.object ⟨"W", [2], { base := some 4 }, {}⟩) := by decide +kernel
  simp [wrapped, bodyTrees, isHead, Body.slots, tree_endlessTable.2, substitute_node, TypeTree.substitute,
    assignment]

/-- Each further base puts one more `W` around the type. -/
theorem ancestor?_wrapped (count : Nat) :
    endlessTable.ancestor? (wrapped 1) count = some (wrapped (count + 1)) := by
  induction count with
  | zero => rfl
  | succ count ih => rw [ancestor?, ih, Option.bind_some, baseTree?, bodyTrees_wrapped, List.lookup_cons_self]

theorem not_lookupEnds_endlessTable : ¬ endlessTable.LookupEnds "x" (endlessTable.tree 3) := by
  rw [tree_endlessTable.1]
  rintro (⟨type, count, owner, isAncestor, found, -⟩ | finite)
  · rw [ancestor?_wrapped] at isAncestor
    obtain rfl := Option.some.inj isAncestor
    rw [ownField?, bodyTrees_wrapped] at found
    cases found
  · refine Set.infinite_range_of_injective (f := wrapped) ?_ ((finite.insert (wrapped 0)).subset ?_)
    · exact fun first second same => by rw [← depth_wrapped first, same, depth_wrapped]
    · rintro tree ⟨count, rfl⟩
      cases count with
      | zero => exact .inl rfl
      | succ count => exact .inr ⟨count, ancestor?_wrapped count⟩

/-- `P` is an object of `Q[P]`, and `Q[T]` has an item of type `T`. -/
def curiousTable : TypeTable :=
  after {} [.object "P" [] {}, .object "Q" ["T"] {}, .instantiate 2 [1], .define 1 { base := some 4 },
    .define 2 { fields := [⟨"item", 3⟩] }]

theorem curiousTable_built : curiousTable.Built := Built.empty.after (by decide +kernel)

theorem lookupEnds_curiousTable : curiousTable.LookupEnds "item" (curiousTable.tree 1) := by
  have wellFormed := curiousTable_built.regular.toWellFormed
  have isP : curiousTable.get? 1 = some (.object ⟨"P", [], { base := some 4 }, {}⟩) := by decide +kernel
  have isQ : curiousTable.get? 2 = some (.object ⟨"Q", [3], { fields := [⟨"item", 3⟩] }, {}⟩) := by decide +kernel
  have isVariable : curiousTable.get? 3 = some (.typevar "T") := by decide +kernel
  have isBase : curiousTable.get? 4 = some (.applied 2 [1]) := by decide +kernel
  have own : curiousTable.bodyTrees (curiousTable.tree 1) = [(.base, curiousTable.tree 4)] := by
    simp [wellFormed.bodyTrees_object isP, spelledSlots, Body.slots]
  have inherited : curiousTable.bodyTrees (curiousTable.tree 4) = [(.field "item", curiousTable.tree 1)] := by
    simp [wellFormed.bodyTrees_instance isBase isQ, Body.slots, wellFormed.tree_eq isVariable, TypeDef.label,
      TypeTree.substitute, assignment]
  refine .inl ⟨curiousTable.tree 1, 1, curiousTable.tree 4, ?_, ?_, fun before first tree isAncestor => ?_⟩
  · simp [ancestor?, baseTree?, own]
  · simp [ownField?, inherited]
  · obtain rfl : before = 0 := by omega
    obtain rfl := Option.some.inj isAncestor
    rw [ownField?, own]
    rfl

end Cases

/-- A look-up ends with the nearest field when the chain of bases has one or is finite, and
otherwise it never ends. -/
theorem Built.fieldType?_settles (built : table.Built) (has : table.Has id) (name : String) :
    (table.LookupEnds name (table.tree id) →
      Settles (fun found later => table.FieldAnswer name (table.tree id) later found)
        (fun fuel => TableM.fieldType? fuel id name) table) ∧
    (¬ table.LookupEnds name (table.tree id) →
      ∀ fuel, ∃ later, TableM.fieldType? fuel id name table = .error .exhausted later) := by
  have faithful := built.faithful
  refine ⟨fun ends => ?_, fun endless fuel => TableM.fieldType?_exhausts faithful has endless fuel⟩
  obtain ⟨bound, answers⟩ := TableM.fieldType?_bounded faithful has ends
  obtain ⟨found, later, run⟩ := answers (bound + 1) (by omega)
  have answer := (TableM.fieldTypeFrom_answers (faithful.walk has name) faithful.toWellFormed run).2
  refine ⟨found, later, answer, Filter.eventually_atTop.mpr ⟨bound + 1, fun fuel enough => ?_⟩⟩
  exact TableM.fieldTypeFrom_steady name [] id (bound + 1) fuel enough _ _ _ run

theorem fieldType?_settles_curious :
    Settles (fun found later => curiousTable.FieldAnswer "item" (curiousTable.tree 1) later found)
        (fun fuel => TableM.fieldType? fuel 1 "item") curiousTable ∧
      ∀ fuel, ∃ later, TableM.fieldType? fuel 3 "x" endlessTable = .error .exhausted later :=
  ⟨(curiousTable_built.fieldType?_settles (by unfold Has; decide +kernel) "item").1 lookupEnds_curiousTable,
    (endlessTable_built.fieldType?_settles (by unfold Has; decide +kernel) "x").2 not_lookupEnds_endlessTable⟩

example : (TableM.fieldType? 2 1 "item").result? curiousTable = some (some 1) := by decide +kernel

/-- Every look-up in a table of objects and instances ends with the nearest field. -/
def FieldLookupsEnd : Prop :=
  ∀ calls : List TableCall, (∀ call ∈ calls, call.buildsObjects = true) → knowsGiven {} calls = true →
    ∀ id name, (after {} calls).Has id →
      Settles (fun found later => (after {} calls).FieldAnswer name ((after {} calls).tree id) later found)
        (fun fuel => TableM.fieldType? fuel id name) (after {} calls)

theorem not_fieldLookupsEnd : ¬ FieldLookupsEnd := by
  intro claimed
  have has : endlessTable.Has 3 := by
    unfold Has
    decide +kernel
  obtain ⟨found, later, -, answers⟩ :=
    claimed endlessCalls (by simp [endlessCalls, TableCall.buildsObjects]) (by decide +kernel) 3 "x" has
  obtain ⟨fuel, run⟩ := answers.exists
  obtain ⟨other, exhausted⟩ :=
    TableM.fieldType?_exhausts endlessTable_built.faithful has not_lookupEnds_endlessTable fuel
  cases run.symm.trans exhausted

end TypeTable
end LifecycleHooks

import LifecycleHooks.Proofs.Types.Bodies
import LifecycleHooks.Proofs.Types.Matching
import Mathlib.Logic.Relation

/-!
# Substitutions one after the other

What a substitution answers is known by its spelling, and an operation leaves the spellings
of all existing types alone.  So the answers of one table can be compared however many
operations lie between them: two substitutions one after the other answer what their
composition does, and the body of an instance goes with the substitutions in the instance.
-/

namespace LifecycleHooks

namespace TypeTree

variable {first second : TypeId → Option TypeTree}

/-- What two assignments one after the other assign. -/
def andThen (first second : TypeId → Option TypeTree) (id : TypeId) : Option TypeTree :=
  match first id with
  | some tree => some (tree.substitute second)
  | none => second id

/-- Substituting twice is substituting by the composition. -/
theorem substitute_substitute (tree : TypeTree) :
    (tree.substitute first).substitute second = tree.substitute (andThen first second) := by
  induction tree using induction with
  | node label operands ih =>
      by_cases isVariable : ∃ id, label = .typevar id
      · obtain ⟨id, rfl⟩ := isVariable
        rw [substitute, substitute, andThen]
        cases first id with
        | none => rw [Option.getD_none, substitute]
        | some assigned => rfl
      · have constant : ∀ id, label ≠ .typevar id := by simpa using isVariable
        rw [substitute_node constant, substitute_node constant, substitute_node constant, List.map_map]
        exact congrArg (node label) (List.map_congr_left fun operand member => ih operand member)

end TypeTree

/-- Substituting in the arguments of an instance is substituting behind its parameters. -/
theorem assignment_map {params : List TypeId} {args : List TypeTree} (sameLength : args.length = params.length)
    (assign : TypeId → Option TypeTree) {id : TypeId} (isParam : id ∈ params) :
    assignment params (args.map fun arg => arg.substitute assign) id =
      TypeTree.andThen (assignment params args) assign id := by
  unfold TypeTree.andThen assignment
  induction params generalizing args with
  | nil => cases isParam
  | cons param params ih =>
      cases args with
      | nil => cases sameLength
      | cons arg args =>
          rw [List.map_cons, List.zip_cons_cons, List.zip_cons_cons, List.lookup_cons, List.lookup_cons]
          by_cases same : id = param
          · simp [same]
          · rw [beq_false_of_ne same]
            exact ih (by simpa using sameLength) ((List.mem_cons.mp isParam).resolve_left same)

/-- A body is known by its slots. -/
theorem Body.slots_injective {contents other : Body} (same : contents.slots = other.slots) : contents = other := by
  obtain ⟨fields, base⟩ := contents
  obtain ⟨others, otherBase⟩ := other
  have fieldSlot : Function.Injective fun field : Field => (⟨.field field.name, field.type⟩ : Slot) := by
    rintro ⟨name, type⟩ ⟨other, otherType⟩ same
    simpa using same
  cases base <;> cases otherBase <;> simp only [Body.slots, Option.toList] at same
  case none.none => exact congrArg (Body.mk · none) (List.map_injective_iff.mpr fieldSlot (by simpa using same))
  case some.some first second =>
    obtain ⟨sameBase, sameFields⟩ := List.cons.inj same
    have fields := List.map_injective_iff.mpr fieldSlot sameFields
    exact congrArg₂ Body.mk fields (by simpa using sameBase)
  case none.some => cases fields <;> simp at same
  case some.none => cases others <;> simp at same

namespace TableM

/-- Where nothing is mapped, a body stays as it is. -/
theorem substituteBody_nil (contents : Body) : substituteBody [] contents = pure contents := by
  have fields : (contents.fields.mapM fun field => do return { field with type := ← substitute [] field.type }) =
      (pure contents.fields : TableM (List Field)) := by
    induction contents.fields with
    | nil => rfl
    | cons field fields ih =>
        rw [List.mapM_cons, ih]
        rfl
  unfold substituteBody
  rw [fields, pure_bind]
  obtain ⟨fields, base⟩ := contents
  cases base <;> rfl

end TableM

namespace TypeTable

open Attempt TableM

/-- A table as operations with existing types make it of another one. -/
def Becomes : TypeTable → TypeTable → Prop :=
  Relation.ReflTransGen fun table later =>
    ∃ call : TableCall, (∀ id ∈ call.given, table.Has id) ∧ later = call.run.finish table

/-- An operation with existing types that was carried out on the way to a table. -/
structure Performed (table : TypeTable) (call : TableCall) (before : TypeTable) : Prop where
  built : before.Built
  given : ∀ id ∈ call.given, before.Has id
  becomes : (call.run.finish before).Becomes table

/-- A substitution that was answered on the way to a table. -/
def Substitutes (table : TypeTable) (mapping : Substitution) (id result : TypeId) : Prop :=
  ∃ before, table.Performed (.substitute mapping id) before ∧ (substitute mapping id).result? before = some result

/-- The body of an instance that was answered on the way to a table, when its generic object
was the one given. -/
def GivesBody (table : TypeTable) (object : ObjectType) (id : TypeId) (contents : Body) : Prop :=
  ∃ before head args, table.Performed (.body id) before ∧ (body id).result? before = some contents ∧
    before.get? id = some (.applied head args) ∧ before.get? head = some (.object object)

/-- A mapping that takes each type variable where two others take it one after the other. -/
structure Composes (table : TypeTable) (first second both : Substitution) : Prop where
  mapped : ∀ var type, first.lookup var = some type →
    ∃ image, both.lookup var = some image ∧ table.Substitutes second type image
  unmapped : ∀ var, first.lookup var = none → both.lookup var = second.lookup var

/-- The body of an object mentions no type variables but the parameters of the object. -/
def MentionsParams (table : TypeTable) (object : ObjectType) : Prop :=
  ∀ slot ∈ object.body.slots, ∀ id, (table.tree slot.type).Mentions id → id ∈ object.params

/-- A table whose substitutions are answered, compose, and go with the bodies of instances. -/
structure Substitutive (table : TypeTable) : Prop where
  /-- Substitution in an existing type answers with a type that exists from then on. -/
  answers : ∀ mapping id, (∀ given ∈ (TableCall.substitute mapping id).given, table.Has given) →
    ∃ result later, substitute mapping id table = .ok result later ∧ table.Becomes later ∧ later.Has result
  /-- The body of an existing type is answered. -/
  bodies : ∀ id, table.Has id → ∃ contents later, body id table = .ok contents later ∧ table.Becomes later
  /-- Two substitutions one after the other answer what their composition does. -/
  composes : ∀ first second both id middle result direct, table.Composes first second both →
    table.Substitutes first id middle → table.Substitutes second middle result →
    table.Substitutes both id direct → result = direct
  /-- A type that mentions no mapped type variable stays itself. -/
  leaves : ∀ mapping id result, (∀ var, (table.tree id).Mentions var → mapping.lookup var = none) →
    table.Substitutes mapping id result → result = id
  /-- The body of a substituted instance is the body of the instance, substituted. -/
  commutes : ∀ mapping object id image contents changed, table.MentionsParams object →
    table.Substitutes mapping id image → table.GivesBody object id contents →
    table.GivesBody object image changed → ∃ later, substituteBody mapping contents table = .ok changed later

/-- A table in which all types are kept with their spellings. -/
def KeepsTrees (table later : TypeTable) : Prop :=
  ∀ id, table.Has id → later.Has id ∧ later.tree id = table.tree id

instance : IsPreorder TypeTable KeepsTrees where
  refl _ := fun _ has => ⟨has, rfl⟩
  trans _ _ _ first second := by
    intro id has
    obtain ⟨hasMiddle, middleTree⟩ := first id has
    obtain ⟨hasLast, lastTree⟩ := second id hasMiddle
    exact ⟨hasLast, lastTree.trans middleTree⟩

variable {table later before : TypeTable} {id result : TypeId} {mapping : Substitution}

theorem WellFormed.keepsTrees (wellFormed : table.WellFormed) (extends_ : table.Extends later) :
    table.KeepsTrees later :=
  fun _ has => ⟨has.extends_ extends_, wellFormed.tree_extends extends_ has⟩

/-- No operation changes the spelling of a type, the definition of an object included. -/
theorem Regular.finish_keepsTrees (regular : table.Regular) (call : TableCall)
    (given : ∀ id ∈ call.given, table.Has id) :
    table.KeepsTrees (call.run.finish table) := by
  by_cases grows : call.isDefinition = false
  · exact regular.toWellFormed.keepsTrees ((call.run_extends grows).finish table)
  · cases call with
    | define id contents =>
        obtain ⟨type, found⟩ := (given id List.mem_cons_self).exists
        rw [TableCall.run]
        by_cases isObject : ∃ object, type = .object object
        · obtain ⟨object, rfl⟩ := isObject
          have redefines := withBody_redefines regular.instances found contents
          rw [finish_of_ok (defineObject_run found contents)]
          exact fun other has => ⟨redefines.has_eq ▸ has, by rw [redefines.tree_eq]⟩
        · rw [defineObject_unchanged found fun object same => isObject ⟨object, same⟩]
          exact refl_of KeepsTrees table
    | _ => exact absurd rfl grows

theorem Built.becomes (built : table.Built) (becomes : table.Becomes later) : later.Built := by
  induction becomes with
  | refl => exact built
  | tail _ step ih =>
      obtain ⟨call, given, rfl⟩ := step
      exact ih.call call given

theorem Built.keepsTrees (built : table.Built) (becomes : table.Becomes later) : table.KeepsTrees later := by
  induction becomes with
  | refl => exact refl_of KeepsTrees table
  | tail earlier step ih =>
      obtain ⟨call, given, rfl⟩ := step
      exact trans_of KeepsTrees ih ((built.becomes earlier).regular.finish_keepsTrees call given)

namespace Performed

variable {call : TableCall}

theorem keepsTrees (performed : table.Performed call before) : before.KeepsTrees table :=
  trans_of KeepsTrees (performed.built.regular.finish_keepsTrees call performed.given)
    ((performed.built.call call performed.given).keepsTrees performed.becomes)

end Performed

theorem KeepsTrees.mappedTrees (keeps : table.KeepsTrees later) (values : ∀ pair ∈ mapping, table.Has pair.2) :
    later.mappedTrees mapping = table.mappedTrees mapping := by
  funext id
  unfold TypeTable.mappedTrees
  cases found : mapping.lookup id with
  | none => rfl
  | some value => simp [(keeps value (values _ (mem_of_lookup found))).2]

theorem given_substitute : (∀ given ∈ (TableCall.substitute mapping id).given, table.Has given) ↔
    table.Has id ∧ ∀ pair ∈ mapping, table.Has pair.2 := by
  simp only [TableCall.given, List.forall_mem_cons, List.forall_mem_map]

/-- An answer that was given on the way is spelled as the spellings of the table say. -/
theorem Substitutes.tree_eq (substitutes : table.Substitutes mapping id result) :
    table.Has id ∧ table.Has result ∧ (∀ pair ∈ mapping, table.Has pair.2) ∧
      table.tree result = (table.tree id).substitute (table.mappedTrees mapping) := by
  obtain ⟨before, performed, answered⟩ := substitutes
  obtain ⟨has, values⟩ := given_substitute.mp performed.given
  obtain ⟨other, middle, run, hasResult, spelled⟩ :=
    substitute_substituted performed.built.regular.toWellFormed values has
  have after : (TableCall.substitute mapping id).run.finish before = middle := by
    rw [TableCall.run, TableCall.finish_bind_pure, finish_of_ok run]
  obtain rfl : other = result := by simpa [result?, run] using answered
  have keeps := performed.keepsTrees
  have onwards := (performed.built.call _ performed.given).keepsTrees performed.becomes
  rw [after] at onwards
  refine ⟨(keeps id has).1, (onwards _ hasResult).1, fun pair member => (keeps _ (values pair member)).1, ?_⟩
  rw [(onwards _ hasResult).2, spelled, (keeps id has).2, keeps.mappedTrees values]

theorem Composes.mappedTrees {first second both : Substitution} (composes : table.Composes first second both) :
    table.mappedTrees both = TypeTree.andThen (table.mappedTrees first) (table.mappedTrees second) := by
  funext var
  cases found : first.lookup var with
  | none => simp [TypeTable.mappedTrees, TypeTree.andThen, found, composes.unmapped var found]
  | some type =>
      obtain ⟨image, isImage, substitutes⟩ := composes.mapped var type found
      obtain ⟨-, -, -, spelled⟩ := substitutes.tree_eq
      simp [TypeTable.mappedTrees, TypeTree.andThen, found, isImage, spelled]

/-- The body of an instance that was given on the way, as the table spells it. -/
theorem GivesBody.spelled {object : ObjectType} {contents : Body} (gives : table.GivesBody object id contents) :
    ∃ head operands, table.tree id = .node (.applied head) operands ∧ operands.length = object.params.length ∧
      (∀ slot ∈ contents.slots, table.Has slot.type) ∧
      table.spelledSlots contents = object.body.slots.map fun slot =>
        (slot.step, (table.tree slot.type).substitute (assignment object.params operands)) := by
  obtain ⟨before, head, args, performed, answered, found, isHead⟩ := gives
  have faithful := performed.built.faithful
  have wellFormed := faithful.toWellFormed
  have has : before.Has id := performed.given id (by simp [TableCall.given])
  obtain ⟨other, middle, run, -, -, spelled, hasSlots⟩ := body_spells faithful has
  have after : (TableCall.body id).run.finish before = middle := by
    rw [TableCall.run, TableCall.finish_bind_pure, finish_of_ok run]
  obtain rfl : other = contents := by simpa [result?, run] using answered
  have keeps := performed.keepsTrees
  have onwards := (performed.built.call _ performed.given).keepsTrees performed.becomes
  rw [after] at onwards
  obtain ⟨declared, isDeclared, -, sameLength⟩ := wellFormed.applied id head args found
  obtain rfl := TypeDef.object.inj (Option.some.inj (isDeclared.symm.trans isHead))
  have sameTree : table.tree id = .node (.applied head) (args.map before.tree) := by
    rw [(keeps id has).2, wellFormed.tree_eq found]
    rfl
  refine ⟨head, args.map before.tree, sameTree, by rw [List.length_map, sameLength],
    fun slot member => (onwards _ (hasSlots slot member)).1, ?_⟩
  have sameSlots : table.spelledSlots other = middle.spelledSlots other :=
    List.map_congr_left fun slot member => by rw [(onwards _ (hasSlots slot member)).2]
  rw [sameSlots, spelled, wellFormed.bodyTrees_instance found isHead]
  exact List.map_congr_left fun slot member => by
    rw [(keeps _ (wellFormed.bodies head declared isHead slot member)).2]

/-- A body is known by its spelled slots. -/
theorem WellFormed.spelledSlots_injective (wellFormed : table.WellFormed) {contents other : Body}
    (has : ∀ slot ∈ contents.slots, table.Has slot.type) (hasOther : ∀ slot ∈ other.slots, table.Has slot.type)
    (same : table.spelledSlots contents = table.spelledSlots other) : contents = other := by
  refine Body.slots_injective (eq_of_map_eq (fun slot member second inside spelled => ?_) same)
  obtain ⟨sameStep, sameTree⟩ := Prod.mk.inj spelled
  have sameType := wellFormed.tree_injective (has slot member) (hasOther second inside) sameTree
  cases slot
  cases second
  exact congrArg₂ Slot.mk sameStep sameType

/-- Substituting in a body is substituting in its spelled slots. -/
theorem WellFormed.substituteBody_spelled (wellFormed : table.WellFormed) {contents : Body}
    (values : ∀ pair ∈ mapping, table.Has pair.2) (has : ∀ slot ∈ contents.slots, table.Has slot.type) :
    ∃ changed later, substituteBody mapping contents table = .ok changed later ∧ later.WellFormed ∧
      table.KeepsTrees later ∧ (∀ slot ∈ changed.slots, later.Has slot.type) ∧
      later.spelledSlots changed = (table.spelledSlots contents).map fun slot =>
        (slot.1, slot.2.substitute (table.mappedTrees mapping)) := by
  by_cases assigns : mapping = []
  · subst assigns
    refine ⟨contents, table, ?_, wellFormed, refl_of KeepsTrees table, has, ?_⟩
    · rw [substituteBody_nil]
      rfl
    · have same (tree : TypeTree) : tree.substitute (table.mappedTrees []) = tree :=
        TypeTree.substitute_eq_self fun _ _ => rfl
      simp only [same, Prod.mk.eta, List.map_id']
  · obtain ⟨changed, later, run, later', unfolds, told⟩ := substituteBody_works wellFormed assigns values has
    refine ⟨changed, later, run, later', wellFormed.keepsTrees unfolds.extends_,
      (SubstitutedSlot.holdsSlots told).2, ?_⟩
    unfold spelledSlots
    rw [List.map_map]
    have pointwise : List.Forall₂ (fun slot result : Slot =>
        ((slot.step, (table.tree slot.type).substitute (table.mappedTrees mapping)) : Step × TypeTree) =
          (result.step, later.tree result.type)) contents.slots changed.slots :=
      told.imp fun slot result told => by rw [told.1, told.2.2]
    have mapped := List.forall₂_map_left_iff.mpr (List.forall₂_map_right_iff.mpr pointwise)
    rw [List.forall₂_eq_eq_eq] at mapped
    exact mapped.symm

section Boxes

theorem after_append (table : TypeTable) (earlier behind : List TableCall) :
    table.after (earlier ++ behind) = (table.after earlier).after behind := by
  induction earlier generalizing table with
  | nil => rfl
  | cons call earlier ih => exact ih _

theorem knowsGiven_append (earlier behind : List TableCall) :
    table.knowsGiven (earlier ++ behind) = (table.knowsGiven earlier && (table.after earlier).knowsGiven behind) := by
  induction earlier generalizing table with
  | nil => rfl
  | cons call earlier ih => rw [List.cons_append, knowsGiven, knowsGiven, ih, Bool.and_assoc, after]

theorem becomes_after {calls : List TableCall} (known : table.knowsGiven calls = true) :
    table.Becomes (table.after calls) := by
  induction calls generalizing table with
  | nil => exact .refl
  | cons call rest ih =>
      rw [knowsGiven, Bool.and_eq_true, List.all_eq_true] at known
      exact .head ⟨call, known.1, rfl⟩ (ih known.2)

/-- Each of the operations that made a table was carried out on what those before it made. -/
theorem performed_after {calls : List TableCall} {call : TableCall} (index : Nat) (atIndex : calls[index]? = some call)
    (known : knowsGiven {} calls = true) : (after {} calls).Performed call (after {} (calls.take index)) := by
  obtain ⟨bound, rfl⟩ := List.getElem?_eq_some_iff.mp atIndex
  have split : calls = calls.take index ++ calls[index] :: calls.drop (index + 1) := by
    rw [← List.drop_eq_getElem_cons bound, List.take_append_drop]
  rw [split, knowsGiven_append, Bool.and_eq_true, knowsGiven, Bool.and_eq_true, List.all_eq_true] at known
  obtain ⟨before, given, behind⟩ := known
  refine ⟨Built.empty.after before, given, ?_⟩
  have onwards := becomes_after behind
  rwa [← after, ← after_append, ← split] at onwards

/-- A box of items of type `T`, the boxes of `U` and of `seq[V]`, and what is asked about them. -/
def boxCalls : List TableCall :=
  [.object "Box" ["T"] {}, .wrap .seq 2, .define 1 { fields := [⟨"items", 3⟩] }, .typevar "U", .typevar "V", .int,
    .instantiate 1 [4], .wrap .seq 5,
    -- The items of the first box are boxed once more, and `V` becomes `int`, in two steps and in one.
    .substitute [(4, 8)] 7, .substitute [(5, 6)] 9, .substitute [(5, 6)] 8, .substitute [(4, 10), (5, 6)] 7,
    .body 7, .body 9]

def boxTable : TypeTable := after {} boxCalls

def boxObject : ObjectType := ⟨"Box", [2], { fields := [⟨"items", 3⟩] }, {}⟩

theorem boxCalls_known : knowsGiven {} boxCalls = true := by decide +kernel

theorem boxObject_mentionsParams : boxTable.MentionsParams boxObject := by
  have wellFormed : boxTable.WellFormed := (Built.empty.after boxCalls_known).regular.toWellFormed
  have isItems : boxTable.get? 3 = some (.wrap .seq 2) := by decide +kernel
  have isVariable : boxTable.get? 2 = some (.typevar "T") := by decide +kernel
  intro slot member id mentions
  obtain rfl : slot = ⟨.field "items", 3⟩ := by simpa [boxObject, Body.slots] using member
  dsimp only at mentions
  rw [wellFormed.tree_eq isItems, TypeTree.mentions_node (by simp [TypeDef.label])] at mentions
  simpa [boxObject, TypeDef.operands, wellFormed.mentions_typevar isVariable] using mentions

theorem boxTable_composes : boxTable.Composes [(4, 8)] [(5, 6)] [(4, 10), (5, 6)] := by
  constructor
  case mapped =>
    intro var type found
    obtain ⟨rfl, rfl⟩ : var = 4 ∧ type = 8 := by simpa using mem_of_lookup found
    exact ⟨10, rfl, _, performed_after 10 rfl boxCalls_known, by decide +kernel⟩
  case unmapped =>
    intro var unmapped
    have other : var ≠ 4 := by
      rintro rfl
      cases unmapped
    rw [List.lookup_cons, beq_false_of_ne other]

end Boxes

/-- Every table that is built answers all substitutions, and they compose. -/
theorem Built.substitutive (built : table.Built) : table.Substitutive := by
  have wellFormed := built.regular.toWellFormed
  have becomes (call : TableCall) (given : ∀ id ∈ call.given, table.Has id) :
      table.Becomes (call.run.finish table) :=
    .single ⟨call, given, rfl⟩
  constructor
  case answers =>
    intro mapping id given
    obtain ⟨has, values⟩ := given_substitute.mp given
    obtain ⟨result, later, run, hasResult, -⟩ := substitute_substituted wellFormed values has
    have after := becomes _ given
    rw [TableCall.run, TableCall.finish_bind_pure, finish_of_ok run] at after
    exact ⟨result, later, run, after, hasResult⟩
  case bodies =>
    intro id has
    obtain ⟨contents, later, run, -⟩ := body_spells built.faithful has
    have after := becomes (.body id) (by simpa [TableCall.given] using has)
    rw [TableCall.run, TableCall.finish_bind_pure, finish_of_ok run] at after
    exact ⟨contents, later, run, after⟩
  case composes =>
    intro first second both id middle result direct composes onFirst onSecond onBoth
    obtain ⟨-, -, -, middleTree⟩ := onFirst.tree_eq
    obtain ⟨-, hasResult, -, resultTree⟩ := onSecond.tree_eq
    obtain ⟨-, hasDirect, -, directTree⟩ := onBoth.tree_eq
    refine wellFormed.tree_injective hasResult hasDirect ?_
    calc table.tree result
        = ((table.tree id).substitute (table.mappedTrees first)).substitute (table.mappedTrees second) := by
          rw [resultTree, middleTree]
      _ = (table.tree id).substitute (TypeTree.andThen (table.mappedTrees first) (table.mappedTrees second)) :=
          TypeTree.substitute_substitute _
      _ = table.tree direct := by rw [directTree, composes.mappedTrees]
  case leaves =>
    intro mapping id result unmapped substitutes
    obtain ⟨has, hasResult, -, spelled⟩ := substitutes.tree_eq
    refine wellFormed.tree_injective hasResult has (spelled.trans (TypeTree.substitute_eq_self fun var mentions => ?_))
    rw [TypeTable.mappedTrees, unmapped var mentions, Option.map_none]
  case commutes =>
    intro mapping object id image contents changed ownParams substitutes gives givesImage
    obtain ⟨-, -, values, imageTree⟩ := substitutes.tree_eq
    obtain ⟨head, operands, tree, sameLength, has, spelled⟩ := gives.spelled
    obtain ⟨other, others, otherTree, -, hasChanged, spelledChanged⟩ := givesImage.spelled
    obtain ⟨made, later, run, later', keeps, hasMade, spelledMade⟩ := wellFormed.substituteBody_spelled values has
    -- The image is an instance of the same object, with the arguments substituted.
    rw [imageTree, tree, TypeTree.substitute_node (by simp)] at otherTree
    obtain ⟨-, rfl⟩ := TypeTree.node.inj otherTree
    have sameSlots : table.spelledSlots changed = later.spelledSlots made := by
      rw [spelledMade, spelled, spelledChanged, List.map_map]
      refine List.map_congr_left fun slot member => congrArg (Prod.mk slot.step) ?_
      rw [TypeTree.substitute_substitute]
      refine TypeTree.substitute_congr fun var mentions => ?_
      exact assignment_map sameLength _ (ownParams slot member var mentions)
    have onwards : later.spelledSlots changed = table.spelledSlots changed :=
      List.map_congr_left fun slot member => by rw [(keeps _ (hasChanged slot member)).2]
    obtain rfl := later'.spelledSlots_injective (fun slot member => (keeps _ (hasChanged slot member)).1) hasMade
      (onwards.trans sameSlots)
    exact ⟨later, run⟩

/-- The first box gets the same type in two steps and in one, and its items are boxed as it is. -/
theorem substitutive_boxes :
    boxTable.Substitutes [(4, 8)] 7 9 ∧ boxTable.Substitutes [(5, 6)] 9 11 ∧
      (∀ direct, boxTable.Substitutes [(4, 10), (5, 6)] 7 direct → 11 = direct) ∧
      boxTable.Substitutes [(4, 10), (5, 6)] 7 11 ∧
      ∃ later, substituteBody [(4, 8)] { fields := [⟨"items", 12⟩] } boxTable =
        .ok { fields := [⟨"items", 13⟩] } later := by
  have substitutive := (Built.empty.after boxCalls_known).substitutive
  have boxed : boxTable.Substitutes [(4, 8)] 7 9 :=
    ⟨_, performed_after 8 rfl boxCalls_known, by decide +kernel⟩
  have counted : boxTable.Substitutes [(5, 6)] 9 11 :=
    ⟨_, performed_after 9 rfl boxCalls_known, by decide +kernel⟩
  have atOnce : boxTable.Substitutes [(4, 10), (5, 6)] 7 11 :=
    ⟨_, performed_after 11 rfl boxCalls_known, by decide +kernel⟩
  have items : boxTable.GivesBody boxObject 7 { fields := [⟨"items", 12⟩] } :=
    ⟨_, 1, [4], performed_after 12 rfl boxCalls_known, by decide +kernel, by decide +kernel, by decide +kernel⟩
  have boxedItems : boxTable.GivesBody boxObject 9 { fields := [⟨"items", 13⟩] } :=
    ⟨_, 1, [8], performed_after 13 rfl boxCalls_known, by decide +kernel, by decide +kernel, by decide +kernel⟩
  refine ⟨boxed, counted, fun direct answered => ?_, atOnce, ?_⟩
  · exact substitutive.composes _ _ _ _ _ _ _ boxTable_composes boxed counted answered
  · exact substitutive.commutes _ _ _ _ _ _ boxObject_mentionsParams boxed items boxedItems

end TypeTable
end LifecycleHooks

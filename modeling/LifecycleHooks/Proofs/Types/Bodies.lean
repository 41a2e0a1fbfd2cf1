import LifecycleHooks.Proofs.Types.Building

/-!
# The bodies of objects and instances

The body of an object or of an instance is spelled by its slots: how each is reached, and the
spelling of what it holds.  A table is faithful when every body that it remembers has the
slots of the generic object.  Then a body that is asked for is spelled as the type says,
whether it was remembered or not, and every table that is built is faithful.
-/

namespace LifecycleHooks
namespace TypeTable

open Attempt

/-- The slots of the body of a type: how each is reached, and the spelling of what it holds. -/
def bodyTrees (table : TypeTable) : TypeTree → List (Step × TypeTree)
  | .node (.named id) _ =>
      match table.declared? id with
      | some (.object object) => object.body.slots.map fun slot => (slot.step, table.tree slot.type)
      | _ => []
  | .node (.applied head) args =>
      match table.declared? head with
      | some (.object object) => object.body.slots.map fun slot =>
          (slot.step, (table.tree slot.type).substitute (assignment object.params args))
      | _ => []
  | _ => []

/-- The slots that a body has by the spellings of what they hold. -/
def spelledSlots (table : TypeTable) (body : Body) : List (Step × TypeTree) :=
  body.slots.map fun slot => (slot.step, table.tree slot.type)

/-- A body that is remembered for an instance has the slots of the generic object. -/
def KeepsSteps (table : TypeTable) : Prop :=
  ∀ id cell body head args object, table.cell? id = some cell → cell.body = some body →
    cell.type = .applied head args → table.get? head = some (.object object) →
      body.slots.map Slot.step = object.body.slots.map Slot.step

/-- A regular table that remembers bodies as they are. -/
structure Faithful (table : TypeTable) : Prop extends Regular table where
  steps : table.KeepsSteps

variable {table larger : TypeTable} {id : TypeId} {type : TypeDef}

section Spelling

/-- Further types of the shapes in use leave the body of every spelling alone. -/
theorem WellFormed.bodyTrees_unfolds (wellFormed : table.WellFormed) (unfolds : table.Unfolds larger)
    (tree : TypeTree) : larger.bodyTrees tree = table.bodyTrees tree := by
  have slots {id : TypeId} {object : ObjectType} (found : table.declared? id = some (.object object)) :
      ∀ slot ∈ object.body.slots, larger.tree slot.type = table.tree slot.type :=
    fun slot member => wellFormed.tree_extends unfolds.extends_
      (wellFormed.bodies id object (declared?_eq_some.mp found).1 slot member)
  obtain ⟨label, operands⟩ := tree
  cases label with
  | named id =>
      simp only [bodyTrees, unfolds.declared?_eq]
      cases found : table.declared? id with
      | none => rfl
      | some type =>
          cases type with
          | object object =>
              exact List.map_congr_left fun slot member => by rw [slots found slot member]
          | _ => rfl
  | applied head =>
      simp only [bodyTrees, unfolds.declared?_eq]
      cases found : table.declared? head with
      | none => rfl
      | some type =>
          cases type with
          | object object =>
              exact List.map_congr_left fun slot member => by rw [slots found slot member]
          | _ => rfl
  | _ => rfl

/-- An object is spelled with the slots that it was given. -/
theorem WellFormed.bodyTrees_object (wellFormed : table.WellFormed) {object : ObjectType}
    (found : table.get? id = some (.object object)) :
    table.bodyTrees (table.tree id) = table.spelledSlots object.body := by
  rw [wellFormed.tree_eq found]
  simp only [TypeDef.label, bodyTrees, declared?_eq_some.mpr ⟨found, rfl⟩, spelledSlots]

/-- An instance is spelled with the slots of its generic object, its arguments put in. -/
theorem WellFormed.bodyTrees_instance (wellFormed : table.WellFormed) {head : TypeId} {args : List TypeId}
    {object : ObjectType} (found : table.get? id = some (.applied head args))
    (isHead : table.get? head = some (.object object)) :
    table.bodyTrees (table.tree id) = object.body.slots.map fun slot =>
      (slot.step, (table.tree slot.type).substitute (assignment object.params (args.map table.tree))) := by
  rw [wellFormed.tree_eq found]
  simp only [TypeDef.label, bodyTrees, declared?_eq_some.mpr ⟨isHead, rfl⟩, TypeDef.operands]

/-- Types other than objects and instances are spelled without slots. -/
theorem WellFormed.bodyTrees_other (wellFormed : table.WellFormed) (found : table.get? id = some type)
    (notObject : ∀ object, type ≠ .object object) (notApplied : ∀ head args, type ≠ .applied head args) :
    table.bodyTrees (table.tree id) = [] := by
  rw [wellFormed.tree_eq found]
  cases type with
  | object object => exact absurd rfl (notObject object)
  | applied head args => exact absurd rfl (notApplied head args)
  | typevar name => rfl
  | array length element => rfl
  | tuple elements => rfl
  | wrap wrapper inner => rfl
  | _ => simp only [TypeDef.label, bodyTrees, declared?_eq_some.mpr ⟨found, rfl⟩]

theorem spelledSlots_eq {body : Body} {spelled : List (Step × TypeTree)}
    (steps : body.slots.map Slot.step = spelled.map Prod.fst)
    (trees : (body.slots.map fun slot => table.tree slot.type) = spelled.map Prod.snd) :
    table.spelledSlots body = spelled := by
  have first : (table.spelledSlots body).map Prod.fst = spelled.map Prod.fst := by
    simpa [spelledSlots, Function.comp_def] using steps
  have second : (table.spelledSlots body).map Prod.snd = spelled.map Prod.snd := by
    simpa [spelledSlots, Function.comp_def] using trees
  rw [List.zip_of_prod first second, ← List.zip_of_prod rfl rfl]

end Spelling

section Remembering

/-- A table that grows without remembering further bodies. -/
structure Recalls (table larger : TypeTable) : Prop where
  extends_ : table.Extends larger
  remembered : ∀ id cell, larger.cell? id = some cell → cell.body ≠ none →
    ∃ before, table.cell? id = some before ∧ before.type = cell.type ∧ before.body = cell.body

instance : IsPreorder TypeTable Recalls where
  refl table := ⟨.refl table, fun _ cell found _ => ⟨cell, found, rfl, rfl⟩⟩
  trans _ _ _ := by
    rintro ⟨first, firstKept⟩ ⟨second, secondKept⟩
    refine ⟨first.trans second, fun id cell found remembered => ?_⟩
    obtain ⟨middle, atMiddle, sameType, sameBody⟩ := secondKept id cell found remembered
    obtain ⟨before, atBefore, type, body⟩ := firstKept id middle atMiddle (sameBody ▸ remembered)
    exact ⟨before, atBefore, type.trans sameType, body.trans sameBody⟩

theorem recalls_add (table : TypeTable) (type : TypeDef) : table.Recalls (table.add type).2 := by
  refine ⟨extends_add table type, fun id cell found remembered => ?_⟩
  rw [cell?_add] at found
  split at found
  · obtain rfl := Option.some.inj found
    exact absurd rfl remembered
  · exact ⟨cell, found, rfl, rfl⟩

theorem recalls_of_sameCells (sameCells : larger.cells = table.cells) : table.Recalls larger := by
  have same (id : TypeId) : larger.cell? id = table.cell? id := by
    unfold cell?
    rw [sameCells]
  exact ⟨fun id cell found => ⟨cell, (same id).trans found, rfl, fun _ known => known, .inl rfl⟩,
    fun id cell found _ => ⟨cell, (same id).symm.trans found, rfl, rfl⟩⟩

/-- Remembering a nesting depth recalls no bodies. -/
theorem recalls_modifyCell (table : TypeTable) (id : TypeId) (depth : Nat) :
    table.Recalls (table.modifyCell id fun cell => { cell with depth := some depth }) := by
  refine ⟨extends_modifyCell _ _ _ (fun _ => rfl) fun _ _ => .inl rfl, fun other cell found _ => ?_⟩
  rw [cell?_modifyCell] at found
  split at found
  · subst other
    obtain ⟨before, atBefore, rfl⟩ := Option.map_eq_some_iff.mp found
    exact ⟨before, atBefore, rfl, rfl⟩
  · exact ⟨cell, found, rfl, rfl⟩

theorem KeepsSteps.recalls (keeps : table.KeepsSteps) (wellFormed : table.WellFormed)
    (recalls : table.Recalls larger) : larger.KeepsSteps := by
  intro id cell body head args object found remembered isApplied isHead
  obtain ⟨before, atBefore, sameType, sameBody⟩ := recalls.remembered id cell found (by simp [remembered])
  have known : table.get? id = some (.applied head args) := by
    simp [get?, atBefore, sameType, isApplied]
  obtain ⟨declared, isDeclared, -⟩ := wellFormed.applied id head args known
  obtain rfl := TypeDef.object.inj
    (Option.some.inj ((recalls.extends_.get? isDeclared).symm.trans isHead))
  exact keeps id before body head args declared atBefore (sameBody.trans remembered)
    (sameType.trans isApplied) isDeclared

/-- A body with the slots of the generic object may be remembered for an instance. -/
theorem KeepsSteps.keepBody (keeps : table.KeepsSteps) {head : TypeId} {args : List TypeId} {body : Body}
    {object : ObjectType} (found : table.get? id = some (.applied head args))
    (isHead : table.get? head = some (.object object))
    (steps : body.slots.map Slot.step = object.body.slots.map Slot.step) :
    (table.modifyCell id fun cell => { cell with body := some body }).KeepsSteps := by
  intro other cell kept other_ args_ object_ atOther remembered isApplied isHead_
  have sameType : ∀ cell : Cell, ({ cell with body := some body } : Cell).type = cell.type := fun _ => rfl
  rw [get?_modifyCell _ sameType] at isHead_
  rw [cell?_modifyCell] at atOther
  split at atOther
  · subst other
    obtain ⟨before, atBefore, rfl⟩ := Option.map_eq_some_iff.mp atOther
    obtain rfl := Option.some.inj remembered
    have known : table.get? id = some before.type := by simp [get?, atBefore]
    obtain ⟨rfl, rfl⟩ := TypeDef.applied.inj (isApplied.symm.trans (Option.some.inj (known.symm.trans found)))
    obtain rfl := TypeDef.object.inj (Option.some.inj (isHead.symm.trans isHead_))
    exact steps
  · exact keeps other cell kept other_ args_ object_ atOther remembered isApplied isHead_

theorem Redefines.keepsSteps {changed : TypeTable} {object : ObjectType} {contents : Body}
    (redefines : table.Redefines changed id object contents) (keeps : table.KeepsSteps) :
    changed.KeepsSteps := by
  intro other cell body head args declared found remembered isApplied isHead
  obtain ⟨before, atBefore, -, unchanged⟩ := redefines.cells other cell found
  obtain ⟨rfl, notInstance⟩ := unchanged (by simp [remembered])
  have differ : head ≠ id := by simpa [isApplied, TableM.isInstanceOf] using notInstance
  rw [redefines.types, if_neg differ] at isHead
  exact keeps other cell body head args declared atBefore remembered isApplied isHead

end Remembering
end TypeTable

namespace TableM

open TypeTable Attempt

variable {table : TypeTable} {id : TypeId}

section Asking

theorem intern_recalls (type : TypeDef) : (intern type).Preserves Recalls := by
  refine leads_get.bind fun table => ?_
  split
  · exact leads_pure _
  · exact fun table => recalls_add table type

/-- The body that an instance has is that of its generic object, slot by slot. -/
theorem body_steps {head : TypeId} {args : List TypeId} {object : ObjectType} {result : Body}
    {larger : TypeTable} (faithful : table.Faithful) (found : table.get? id = some (.applied head args))
    (isHead : table.get? head = some (.object object)) (run : body id table = .ok result larger) :
    result.slots.map Slot.step = object.body.slots.map Slot.step ∧ larger.KeepsSteps := by
  have wellFormed := faithful.toWellFormed
  obtain ⟨cell, atCell, isApplied⟩ := Option.map_eq_some_iff.mp found
  unfold body at run
  rw [bind_run_of_ok (fetch_run found)] at run
  dsimp only at run
  rw [get_bind_run, atCell, Option.bind_some] at run
  cases remembered : cell.body with
  | some known =>
      rw [remembered] at run
      obtain ⟨rfl, rfl⟩ := EStateM.Result.ok.inj run
      exact ⟨faithful.steps id cell _ head args object atCell remembered isApplied isHead, faithful.steps⟩
  | none =>
      rw [remembered] at run
      dsimp only at run
      rw [bind_run_of_ok (fetch_run isHead)] at run
      obtain ⟨made, middle, substituted, run⟩ := bind_eq_ok.mp run
      obtain ⟨rfl, rfl⟩ := EStateM.Result.ok.inj run
      obtain ⟨declared, isDeclared, generic, sameLength⟩ := wellFormed.applied id head args found
      obtain rfl := TypeDef.object.inj (Option.some.inj (isDeclared.symm.trans isHead))
      have assigns : declared.params.zip args ≠ [] := by
        intro empty
        have lengths := congrArg List.length empty
        rw [List.length_zip, sameLength, Nat.min_self] at lengths
        exact generic (List.length_eq_zero_iff.mp lengths)
      have values : ∀ pair ∈ declared.params.zip args, table.Has pair.2 := fun pair member =>
        (wellFormed.earlier id _ found pair.2 (by simp [TypeDef.parts, (List.of_mem_zip member).2])).1
      obtain ⟨same, _, works, -, -, told⟩ :=
        substituteBody_works wellFormed assigns values (wellFormed.bodies head declared isHead)
      obtain ⟨rfl, rfl⟩ := EStateM.Result.ok.inj (works.symm.trans substituted)
      have steps : same.slots.map Slot.step = declared.body.slots.map Slot.step :=
        List.forall₂_eq_eq_eq ▸ List.forall₂_map_left_iff.mpr
          (List.forall₂_map_right_iff.mpr (told.flip.imp fun _ _ slot => slot.1))
      have recalls := (substituteBody_preserves (fun type _ => intern_recalls type) _ _).of_ok substituted
      have keeps := faithful.steps.recalls wellFormed recalls
      exact ⟨steps, keeps.keepBody (recalls.extends_.get? found) (recalls.extends_.get? isHead) steps⟩

/-- The body of an existing type is spelled as the type says. -/
theorem body_spells (faithful : table.Faithful) (has : table.Has id) :
    ∃ result larger, body id table = .ok result larger ∧ larger.Faithful ∧ table.Unfolds larger ∧
      larger.spelledSlots result = table.bodyTrees (table.tree id) ∧
        ∀ slot ∈ result.slots, larger.Has slot.type := by
  obtain ⟨type, found⟩ := has.exists
  have wellFormed := faithful.toWellFormed
  -- What is asked leaves the table faithful when it remembers the right slots.
  have answers {result : Body} {larger : TypeTable} (run : body id table = .ok result larger)
      (keeps : larger.KeepsSteps) : larger.Faithful ∧ table.Unfolds larger := by
    obtain ⟨regular, unfolds⟩ := (body_unrolls id).of_ok run faithful.toRegular
    exact ⟨⟨regular, keeps⟩, unfolds⟩
  cases type with
  | object object =>
      have run : body id table = .ok object.body table := by
        unfold body
        rw [bind_run_of_ok (fetch_run found)]
        rfl
      obtain ⟨after, unfolds⟩ := answers run faithful.steps
      exact ⟨_, _, run, after, unfolds, (wellFormed.bodyTrees_object found).symm, wellFormed.bodies id object found⟩
  | applied head args =>
      obtain ⟨object, isHead, generic, sameLength⟩ := wellFormed.applied id head args found
      obtain ⟨result, larger, run, -, unfolds, trees, hasSlots⟩ :=
        body_works wellFormed found (.inr ⟨head, args, rfl⟩)
      obtain ⟨steps, keeps⟩ := body_steps faithful found isHead run
      refine ⟨result, larger, run, (answers run keeps).1, unfolds, ?_, hasSlots⟩
      have spelled := wellFormed.bodyTrees_instance found isHead
      refine spelledSlots_eq ?_ (trees.trans ?_)
      · rw [spelled, steps, List.map_map]
        rfl
      · rw [spelled, constituentTrees_instance wellFormed found isHead, mappedTrees_zip, List.map_map]
        rfl
  | _ =>
      have run : body id table = .ok {} table := by
        unfold body
        rw [bind_run_of_ok (fetch_run found)]
        rfl
      obtain ⟨after, unfolds⟩ := answers run faithful.steps
      refine ⟨_, _, run, after, unfolds, ?_, by simp [Body.slots]⟩
      rw [wellFormed.bodyTrees_other found (by simp) (by simp)]
      rfl

theorem body_faithful (id : TypeId) : (body id).Preserves (Lasts Faithful) := by
  refine preserves_iff.mpr fun table faithful => ?_
  by_cases has : table.Has id
  · obtain ⟨result, larger, run, later, -⟩ := body_spells faithful has
    rwa [finish_of_ok run]
  · rwa [show (body id).finish table = table from fetch_bind_unknown has _]

theorem builtIn_recalls {known : TypeTable → Option TypeId} {remember : TypeId → TypeTable → TypeTable}
    {type : TypeDef} (sameCells : ∀ id table, (remember id table).cells = table.cells) :
    (builtIn known remember type).Preserves Recalls := by
  refine leads_get.bind fun table => ?_
  split
  · exact leads_pure _
  · have adds : (add type).Preserves Recalls := fun table => recalls_add table type
    refine adds.bind fun id => ?_
    exact (leads_modify fun table => recalls_of_sameCells (sameCells id table)).bind fun _ => leads_pure _

end Asking
end TableM

namespace TypeTable

theorem recalls_withTypevars (table : TypeTable) (names : List String) :
    table.Recalls (table.withTypevars names) := by
  induction names generalizing table with
  | nil => exact refl_of Recalls table
  | cons name names ih => exact trans_of Recalls (recalls_add table _) (ih _)

end TypeTable

namespace TableCall

open TypeTable TableM Attempt

variable {table : TypeTable}

/-- Whether an operation asks for the bodies of types. -/
def asksBodies : TableCall → Bool
  | .body _ | .constituents _ | .fieldType .. => true
  | _ => false

/-- An operation that neither asks for a body nor gives one remembers no further bodies. -/
theorem run_recalls (call : TableCall) (asks : call.asksBodies = false) (grows : call.isDefinition = false) :
    call.run.Preserves Recalls := by
  have ignores {Result : Type} {action : TableM Result} (recalls : action.Preserves Recalls) :
      (do let _ ← action : TableM Unit).Preserves Recalls := recalls.bind fun _ => leads_pure _
  have adds (type : TypeDef) : (TableM.add type).Preserves Recalls := fun table => recalls_add table type
  cases call <;> rw [run]
  case define id contents => cases grows
  case body id => cases asks
  case constituents id => cases asks
  case fieldType fuel id name => cases asks
  all_goals apply ignores
  case int => exact builtIn_recalls fun _ _ => rfl
  case bool => exact builtIn_recalls fun _ _ => rfl
  case void => exact builtIn_recalls fun _ _ => rfl
  case unknown => exact builtIn_recalls fun _ _ => rfl
  case scalar name => exact adds _
  case typevar name => exact adds _
  case distinct name underlying span => exact adds _
  case object name params span =>
    intro table
    rw [declareObject_run]
    exact trans_of Recalls (recalls_add table _) (recalls_withTypevars _ params)
  case array length element => exact intern_recalls _
  case tuple elements => exact intern_recalls _
  case wrap wrapper inner => exact intern_recalls _
  case instantiate head args => exact instantiate_preserves (fun type _ => intern_recalls type) head args
  case nesting id =>
    exact leads_get.bind fun _ => nestingWithin_preserves (fun table id depth => recalls_modifyCell table id depth) _ id
  case substitute mapping id => exact substitute_preserves (fun type _ => intern_recalls type) mapping id

/-- Every operation that is given existing types leaves a faithful table faithful. -/
theorem run_faithful (call : TableCall) (faithful : table.Faithful) (has : ∀ id ∈ call.given, table.Has id) :
    (call.run.finish table).Faithful := by
  refine ⟨call.run_regular faithful.toRegular has, ?_⟩
  by_cases quiet : call.asksBodies = false ∧ call.isDefinition = false
  · exact faithful.steps.recalls faithful.toWellFormed ((call.run_recalls quiet.1 quiet.2).finish table)
  cases call <;> simp only [asksBodies, isDefinition, and_self, not_true_eq_false] at quiet <;> rw [run]
  case define id contents =>
    obtain ⟨type, found⟩ := (has id (by simp [given])).exists
    by_cases isObject : ∃ object, type = .object object
    · obtain ⟨object, rfl⟩ := isObject
      rw [finish_of_ok (defineObject_run found contents)]
      exact (withBody_redefines faithful.instances found contents).keepsSteps faithful.steps
    · rw [defineObject_unchanged found fun object same => isObject ⟨object, same⟩]
      exact faithful.steps
  all_goals rw [finish_bind_pure]
  case body id => exact ((body_faithful id).finish table faithful).steps
  case constituents id => exact ((constituents_preserves (body_faithful id)).finish table faithful).steps
  case fieldType fuel id name =>
    exact ((fieldTypeFrom_preserves body_faithful name fuel [] id).finish table faithful).steps

end TableCall

namespace TypeTable

/-- Whatever its own operations make of a table, it is faithful. -/
theorem Built.faithful {table : TypeTable} (built : table.Built) : table.Faithful := by
  induction built with
  | empty =>
      refine ⟨Built.empty.regular, fun id cell body head args object found => ?_⟩
      unfold cell? at found
      split at found <;> simp at found
  | call earlier call has faithful => exact call.run_faithful faithful has

end TypeTable
end LifecycleHooks

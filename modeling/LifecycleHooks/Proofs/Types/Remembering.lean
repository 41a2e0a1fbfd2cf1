import LifecycleHooks.Proofs.Types.Composition
import LifecycleHooks.Proofs.Types.FieldLookup

/-!
# What a table remembers

A table remembers the bodies of instances and the nesting depths of types.  The plain
counterparts of its questions look at the types alone and work out every body and every
depth anew.  In a table that is built, however its objects were redefined between the
questions, a question and its counterpart have the same answer, and they make the same
types.
-/

namespace LifecycleHooks

namespace Attempt

variable {State View First Second : Type}

/-- What a computation comes to, by a view of the state that it leaves. -/
def seenBy (view : State → View) : EStateM.Result Fault State First → EStateM.Result Fault View First
  | .ok result final => .ok result (view final)
  | .error fault final => .error fault (view final)

/-- A computation that needs of the state no more than a part of it that is itself a state. -/
def Needs (part : State → State) (action : Attempt State First) : Prop :=
  ∀ state, action (part state) = seenBy part (action state)

variable {part : State → State}

theorem seenBy_ok {view : State → View} {outcome : EStateM.Result Fault State First} {result : First} {seen : View} :
    seenBy view outcome = .ok result seen ↔ ∃ final, outcome = .ok result final ∧ view final = seen := by
  cases outcome <;> simp [seenBy, eq_comm]

theorem needs_pure (result : First) : Needs part (pure result) := fun _ => rfl

theorem needs_throw (fault : Fault) : Needs part (throw fault : Attempt State First) := fun _ => rfl

theorem needs_ofExcept (answer : Except Fault First) : Needs part (ofExcept answer) := by
  cases answer with
  | ok result => exact needs_pure result
  | error fault => exact needs_throw fault

theorem Needs.bind {action : Attempt State First} {next : First → Attempt State Second} (first : Needs part action)
    (second : ∀ result, Needs part (next result)) : Needs part (action >>= next) := by
  intro state
  rw [bind_run, bind_run, first state]
  cases action state with
  | ok result middle => exact second result middle
  | error fault middle => rfl

theorem needs_get_bind {next : State → Attempt State First} (same : ∀ state, next (part state) = next state)
    (each : ∀ state, Needs part (next state)) : Needs part (get >>= next) := by
  intro state
  rw [get_bind_run, get_bind_run, same state]
  exact each state state

theorem needs_mapM {items : List First} {action : First → Attempt State Second}
    (each : ∀ item ∈ items, Needs part (action item)) : Needs part (items.mapM action) := by
  induction items with
  | nil => exact needs_pure []
  | cons item items ih =>
      rw [List.mapM_cons]
      refine (each item List.mem_cons_self).bind fun _ => ?_
      exact (ih fun other member => each other (List.mem_cons_of_mem item member)).bind fun _ => needs_pure _

/-- Items whose results are there already leave the state as it is, one after the other. -/
theorem mapM_unchanged (known : Second → Prop) {items : List First} {action : First → Attempt State Second}
    {state final : State} {results : List Second}
    (each : ∀ item ∈ items, ∀ result later, action item state = .ok result later → known result → later = state)
    (run : items.mapM action state = .ok results final) (areKnown : ∀ result ∈ results, known result) :
    final = state := by
  induction items generalizing results final with
  | nil => exact (EStateM.Result.ok.inj run).2.symm
  | cons item items ih =>
      rw [List.mapM_cons] at run
      obtain ⟨result, middle, acted, run⟩ := bind_eq_ok.mp run
      obtain ⟨others, last, rest, run⟩ := bind_eq_ok.mp run
      obtain ⟨rfl, rfl⟩ := EStateM.Result.ok.inj run
      obtain rfl := each item List.mem_cons_self result middle acted (areKnown result List.mem_cons_self)
      exact ih (fun other member => each other (List.mem_cons_of_mem item member)) rest
        fun other member => areKnown other (List.mem_cons_of_mem result member)

theorem mapM_settled {items : List First} {action : First → Attempt State Second} {state : State}
    {results : List Second}
    (each : List.Forall₂ (fun item result => action item state = .ok result state) items results) :
    items.mapM action state = .ok results state := by
  induction each with
  | nil => rfl
  | cons first rest ih =>
      rw [List.mapM_cons, bind_run_of_ok first, bind_run_of_ok ih]
      rfl

end Attempt

namespace TypeTable

/-- A table with the same types, about which nothing is remembered. -/
def forget (table : TypeTable) : TypeTable :=
  { table with cells := table.cells.map fun cell => { type := cell.type } }

/-- Tables with the same types, whatever is remembered about them. -/
def SameTypes (table other : TypeTable) : Prop := other.forget = table.forget

instance : IsPreorder TypeTable SameTypes where
  refl _ := rfl
  trans _ _ _ first second := second.trans first

/-- The nesting depth of a type, worked out anew. -/
def plainNestingWithin (table : TypeTable) : (depth : Nat) → TypeId → Except Fault Nat
  | 0, id => .error (.endlessType id)
  | depth + 1, id => do
      let operands := (← table.get id).operands
      let inner ← operands.mapM (table.plainNestingWithin depth)
      return if operands.isEmpty then 0 else inner.foldl max 0 + 1

@[inherit_doc plainNestingWithin]
def plainNesting (table : TypeTable) (id : TypeId) : Except Fault Nat :=
  table.plainNestingWithin (table.size + 1) id

end TypeTable

namespace TableM

/-- The body of an object or of an instance, for which the arguments are put into the body
that the generic object has at the time. -/
def plainBody (id : TypeId) : TableM Body := do
  match ← fetch id with
  | .object object => return object.body
  | .applied head args =>
      match ← fetch head with
      | .object object => substituteBody (object.params.zip args) object.body
      | _ => return {}
  | _ => return {}

/-- The constituents of a type by its plain body. -/
def plainConstituents (id : TypeId) : TableM (List Slot) := do
  match ← fetch id with
  | .object _ | .applied .. => return (← plainBody id).slots
  | _ => constituents id

/-- The type of a field by the plain bodies along the chain of bases. -/
def plainFieldTypeFrom (name : String) : (fuel : Nat) → (seen : List TypeId) → TypeId → TableM (Option TypeId)
  | 0, _, _ => throw .exhausted
  | fuel + 1, seen, id =>
      if id ∈ seen then
        return none
      else do
        let found ← plainBody id
        match found.fields.find? (·.name = name), found.base with
        | some field, _ => return some field.type
        | none, some base => plainFieldTypeFrom name fuel (id :: seen) base
        | none, none => return none

@[inherit_doc plainFieldTypeFrom]
def plainFieldType? (fuel : Nat) (id : TypeId) (name : String) : TableM (Option TypeId) :=
  plainFieldTypeFrom name fuel [] id

end TableM

namespace TypeTable

open Attempt TableM

variable {table larger : TypeTable} {id : TypeId} {type : TypeDef} {mapping : Substitution}

section Forgetting

@[simp]
theorem get?_forget (table : TypeTable) (id : TypeId) : table.forget.get? id = table.get? id := by
  unfold get? cell? forget
  split <;> simp [Function.comp_def]

@[simp]
theorem size_forget (table : TypeTable) : table.forget.size = table.size := by
  simp [size, forget]

@[simp]
theorem get_forget (table : TypeTable) (id : TypeId) : table.forget.get id = table.get id := by
  simp [TypeTable.get]

@[simp]
theorem ownName_forget (table : TypeTable) (id : TypeId) : table.forget.ownName id = table.ownName id := by
  simp [ownName]

@[simp]
theorem find?_forget (table : TypeTable) (type : TypeDef) : table.forget.find? type = table.find? type := by
  simp [find?, forget, Array.findIdx?_map, Function.comp_def]

theorem forget_add (table : TypeTable) (type : TypeDef) :
    table.forget.add type = ((table.add type).1, (table.add type).2.forget) := by
  simp [TypeTable.add, nextId, size, forget, Array.map_push]

/-- Whatever is noted about a type is forgotten with the rest. -/
theorem sameTypes_modifyCell (table : TypeTable) (id : TypeId) {change : Cell → Cell}
    (sameType : ∀ cell, (change cell).type = cell.type) : table.SameTypes (table.modifyCell id change) := by
  unfold SameTypes forget modifyCell
  split
  · simp only [TypeTable.mk.injEq, and_self, and_true]
    apply Array.ext_getElem?
    intro index
    simp only [Array.getElem?_map, Array.getElem?_modify]
    split
    · simp [Function.comp_def, sameType]
    · rfl
  · rfl

end Forgetting

section Settling

/-- A structural type that exists is found, and no further type is made. -/
theorem WellFormed.intern_settled (wellFormed : table.WellFormed) (structural : type.isStructural = true)
    (found : table.get? id = some type) : intern type table = .ok id table := by
  unfold intern
  rw [get_bind_run]
  cases known : table.find? type with
  | none => exact absurd found (get?_ne_of_find?_eq_none known id)
  | some other =>
      obtain rfl := wellFormed.unique id other type structural found (get?_of_find? known)
      rfl

/-- Where the substituted type exists, substitution makes no further types. -/
theorem WellFormed.substituteWithin_settled (wellFormed : table.WellFormed) {depth : Nat} {id result : Int}
    (has : table.Has id) (deep : id.toNat ≤ depth) (hasResult : table.Has result)
    (spelled : table.tree result = (table.tree id).substitute (table.mappedTrees mapping))
    (values : ∀ pair ∈ mapping, table.Has pair.2) :
    substituteWithin mapping depth id table = .ok result table := by
  induction depth generalizing id result with
  | zero => exact absurd deep (Nat.not_le_of_lt has.toNat_pos)
  | succ depth ih =>
      obtain ⟨type, found⟩ := has.exists
      obtain ⟨made, isMade⟩ := hasResult.exists
      have positive := (range_of_get? found).1
      unfold substituteWithin
      rw [bind_run_of_ok (fetch_run found)]
      by_cases isVariable : ∃ name, type = .typevar name
      · obtain ⟨name, rfl⟩ := isVariable
        rw [wellFormed.tree_eq found, TypeDef.label, TypeTree.substitute, mappedTrees] at spelled
        cases assigned : mapping.lookup id with
        | none =>
            rw [assigned, ← TypeDef.label, ← wellFormed.tree_eq found] at spelled
            obtain rfl := wellFormed.tree_injective hasResult has spelled
            simp
        | some value =>
            rw [assigned] at spelled
            obtain rfl := wellFormed.tree_injective hasResult (values _ (mem_of_lookup assigned)) spelled
            simp
      -- The constructor stays, and the operands of the result are the substituted operands.
      have constant : ∀ other, type.label id ≠ .typevar other := by
        intro other same
        cases type <;> simp [TypeDef.label] at same isVariable
      rw [wellFormed.tree_eq found, wellFormed.tree_eq isMade, TypeTree.substitute_node constant] at spelled
      obtain ⟨sameLabel, sameOperands⟩ := TypeTree.node.inj spelled
      have operands : List.Forall₂ (fun operand result =>
          substituteWithin mapping depth operand table = .ok result table) type.operands made.operands := by
        have paired : List.Forall₂ (fun operand result =>
            (table.tree operand).substitute (table.mappedTrees mapping) = table.tree result)
              type.operands made.operands := by
          have mapped := sameOperands.symm
          rw [List.map_map, ← List.forall₂_eq_eq_eq, List.forall₂_map_left_iff, List.forall₂_map_right_iff] at mapped
          exact mapped
        refine List.forall₂_iff_get.mpr ⟨paired.length_eq, fun index before after => ?_⟩
        obtain ⟨hasOperand, below⟩ := wellFormed.operand found (List.get_mem type.operands ⟨index, before⟩)
        obtain ⟨hasMade, -⟩ := wellFormed.operand isMade (List.get_mem made.operands ⟨index, after⟩)
        exact ih hasOperand (by omega) hasMade (paired.get before after).symm
      by_cases structural : type.isStructural = true
      · cases type <;> cases made <;> simp only [TypeDef.isStructural, TypeDef.label, Bool.false_eq_true, reduceCtorEq,
          TypeLabel.array.injEq, TypeLabel.wrap.injEq, TypeLabel.applied.injEq] at structural sameLabel
        all_goals simp only [TypeDef.operands, List.forall₂_cons, List.forall₂_nil_right_iff, and_true] at operands
        case array.array =>
          subst sameLabel
          simp only [bind_run_of_ok operands]
          exact wellFormed.intern_settled rfl isMade
        case tuple.tuple =>
          simp only [bind_run_of_ok (mapM_settled operands)]
          exact wellFormed.intern_settled rfl isMade
        case wrap.wrap =>
          subst sameLabel
          simp only [bind_run_of_ok operands]
          exact wellFormed.intern_settled rfl isMade
        case applied.applied =>
          subst sameLabel
          obtain ⟨object, isHead, generic, sameLength⟩ := wellFormed.applied result _ _ isMade
          simp only [bind_run_of_ok (mapM_settled operands), instantiate_run isHead generic sameLength]
          exact wellFormed.intern_settled rfl isMade
      · obtain rfl := TypeDef.eq_id_of_label (Bool.eq_false_of_not_eq_true structural) sameLabel
        cases type <;> first | rfl | exact absurd rfl structural | exact absurd ⟨_, rfl⟩ isVariable

/-- Substitution with a result that was there before makes no further types. -/
theorem WellFormed.substitute_unchanged (wellFormed : table.WellFormed) {result : TypeId} (has : table.Has id)
    (values : ∀ pair ∈ mapping, table.Has pair.2) (run : substitute mapping id table = .ok result larger)
    (hasResult : table.Has result) : larger = table := by
  by_cases assigns : mapping = []
  · subst assigns
    exact (EStateM.Result.ok.inj run).2.symm
  · obtain ⟨other, later, works, -, unfolds, told⟩ := substitute_works wellFormed assigns values has
    obtain ⟨rfl, rfl⟩ := EStateM.Result.ok.inj (works.symm.trans run)
    have spelled := told.2
    rw [wellFormed.tree_extends unfolds.extends_ hasResult] at spelled
    have settled := wellFormed.substituteWithin_settled has has.toNat_le hasResult spelled values
    unfold substitute at run
    rw [if_neg (by simpa using assigns), get_bind_run, settled] at run
    exact (EStateM.Result.ok.inj run).2.symm

/-- Substitution in a body with results that were there before makes no further types. -/
theorem WellFormed.substituteBody_unchanged (wellFormed : table.WellFormed) {contents result : Body}
    (has : ∀ slot ∈ contents.slots, table.Has slot.type) (values : ∀ pair ∈ mapping, table.Has pair.2)
    (run : substituteBody mapping contents table = .ok result larger)
    (hasResult : ∀ slot ∈ result.slots, table.Has slot.type) : larger = table := by
  have fieldSlot {body : Body} {field : Field} (member : field ∈ body.fields) :
      ⟨.field field.name, field.type⟩ ∈ body.slots :=
    List.mem_append_right _ (List.mem_map_of_mem member)
  obtain ⟨fields, middle, mapped, run⟩ := bind_eq_ok.mp run
  obtain ⟨base, last, based, run⟩ := bind_eq_ok.mp run
  obtain ⟨rfl, rfl⟩ := EStateM.Result.ok.inj run
  obtain rfl : middle = table := by
    refine mapM_unchanged (fun field : Field => table.Has field.type) ?_ mapped
      fun field member => hasResult _ (fieldSlot member)
    intro field member result later run known
    obtain ⟨type, last, substituted, done⟩ := bind_eq_ok.mp run
    obtain ⟨rfl, rfl⟩ := EStateM.Result.ok.inj done
    exact wellFormed.substitute_unchanged (has ⟨_, field.type⟩ (fieldSlot member)) values substituted known
  cases isBase : contents.base with
  | none =>
      rw [isBase] at based
      exact (EStateM.Result.ok.inj based).2.symm
  | some id =>
      rw [isBase] at based
      obtain ⟨changed, last, substituted, done⟩ := bind_eq_ok.mp based
      obtain ⟨rfl, rfl⟩ := EStateM.Result.ok.inj done
      exact wellFormed.substitute_unchanged (has ⟨.base, id⟩ (by simp [Body.slots, isBase])) values substituted
        (hasResult ⟨.base, changed⟩ (by simp [Body.slots]))

end Settling

section Needing

theorem needs_fetch (id : TypeId) : Needs forget (fetch id) :=
  needs_get_bind (fun table => by rw [get_forget]) fun _ => needs_ofExcept _

theorem needs_intern (type : TypeDef) : Needs forget (intern type) := by
  refine needs_get_bind (fun table => by rw [find?_forget]) fun table => ?_
  cases table.find? type with
  | some id => exact needs_pure id
  | none =>
      intro table
      change EStateM.Result.ok (table.forget.add type).1 (table.forget.add type).2 = _
      rw [forget_add]
      rfl

theorem needs_instantiate (head : TypeId) (args : List TypeId) : Needs forget (instantiate head args) := by
  refine (needs_fetch head).bind fun type => needs_get_bind (fun table => by rw [ownName_forget]) fun table => ?_
  refine (needs_ofExcept _).bind fun name => ?_
  split
  · exact needs_throw _
  · split
    · exact needs_throw _
    · exact needs_intern _

theorem needs_substituteWithin (mapping : Substitution) (depth : Nat) (id : TypeId) :
    Needs forget (substituteWithin mapping depth id) := by
  induction depth generalizing id with
  | zero => exact needs_throw _
  | succ depth ih =>
      unfold substituteWithin
      refine (needs_fetch id).bind fun type => ?_
      cases type with
      | array length element => exact (ih element).bind fun _ => needs_intern _
      | tuple elements => exact (needs_mapM fun _ _ => ih _).bind fun _ => needs_intern _
      | wrap wrapper inner => exact (ih inner).bind fun _ => needs_intern _
      | applied head args => exact (needs_mapM fun _ _ => ih _).bind fun _ => needs_instantiate head _
      | _ => exact needs_pure _

theorem needs_substitute (mapping : Substitution) (id : TypeId) : Needs forget (substitute mapping id) := by
  unfold substitute
  split
  · exact needs_pure _
  · exact needs_get_bind (fun table => by rw [size_forget]) fun _ => needs_substituteWithin mapping _ id

theorem needs_substituteBody (mapping : Substitution) (contents : Body) :
    Needs forget (substituteBody mapping contents) := by
  refine (needs_mapM fun field _ => ?_).bind fun fields => ?_
  · exact (needs_substitute mapping field.type).bind fun _ => needs_pure _
  · cases contents.base with
    | none => exact (needs_pure _).bind fun _ => needs_pure _
    | some id => exact ((needs_substitute mapping id).bind fun _ => needs_pure _).bind fun _ => needs_pure _

/-- A plain body looks at the types alone. -/
theorem needs_plainBody (id : TypeId) : Needs forget (plainBody id) := by
  refine (needs_fetch id).bind fun type => ?_
  cases type with
  | applied head args =>
      refine (needs_fetch head).bind fun generic => ?_
      cases generic with
      | object object => exact needs_substituteBody _ _
      | _ => exact needs_pure _
  | _ => exact needs_pure _

end Needing

/-- A question and its plain counterpart are answered alike, and make the same types. -/
def AnswersPlainly {Result : Type} (table : TypeTable) (question plain : TableM Result) : Prop :=
  ∃ answer later other, question table = .ok answer later ∧ plain table = .ok answer other ∧ later.SameTypes other

section Answering

/-- A body that is remembered is spelled as the type says. -/
theorem Faithful.remembered_spells (faithful : table.Faithful) {head : TypeId} {args : List TypeId} {cell : Cell}
    {known : Body} (found : table.get? id = some (.applied head args)) (atCell : table.cell? id = some cell)
    (remembered : cell.body = some known) :
    table.spelledSlots known = table.bodyTrees (table.tree id) ∧ ∀ slot ∈ known.slots, table.Has slot.type := by
  have wellFormed := faithful.toWellFormed
  obtain ⟨object, isHead, -, -⟩ := wellFormed.applied id head args found
  have isApplied : cell.type = .applied head args := by simpa [get?, atCell] using found
  obtain ⟨trees, hasSlots⟩ := wellFormed.kept id cell known atCell remembered
  have steps := faithful.steps id cell known head args object atCell remembered isApplied isHead
  refine ⟨spelledSlots_eq ?_ ?_, hasSlots⟩
  · rw [steps, wellFormed.bodyTrees_instance found isHead, List.map_map]
    rfl
  · rw [trees, constituentTrees_instance wellFormed found isHead, mappedTrees_zip,
      wellFormed.bodyTrees_instance found isHead, List.map_map]
    rfl

/-- Whether or not it is remembered, a body is the plain body. -/
theorem Faithful.body_plainly (faithful : table.Faithful) (has : table.Has id) :
    table.AnswersPlainly (body id) (plainBody id) := by
  have wellFormed := faithful.toWellFormed
  obtain ⟨type, found⟩ := has.exists
  unfold AnswersPlainly body plainBody
  simp only [bind_run_of_ok (fetch_run found)]
  cases type with
  | applied head args =>
      obtain ⟨object, isHead, -, -⟩ := wellFormed.applied id head args found
      have values : ∀ pair ∈ object.params.zip args, table.Has pair.2 := fun pair member =>
        (wellFormed.earlier id _ found pair.2 (by simp [TypeDef.parts, (List.of_mem_zip member).2])).1
      obtain ⟨contents, later, run, later', keeps, hasSlots, spelled⟩ :=
        wellFormed.substituteBody_spelled values (wellFormed.bodies head object isHead)
      obtain ⟨cell, atCell, -⟩ := Option.map_eq_some_iff.mp found
      dsimp only
      rw [get_bind_run, atCell, Option.bind_some, bind_run_of_ok (fetch_run isHead)]
      cases remembered : cell.body with
      | none =>
          have notes : later.SameTypes (later.modifyCell id fun cell => { cell with body := some contents }) :=
            sameTypes_modifyCell later id fun _ => rfl
          refine ⟨contents, _, later, ?_, run, notes.symm⟩
          dsimp only
          rw [bind_run_of_ok (fetch_run isHead)]
          dsimp only
          rw [bind_run_of_ok run]
          rfl
      | some known =>
          -- What is remembered has the spelling of the plain body, and so it is that body.
          obtain ⟨knownSlots, hasKnown⟩ := faithful.remembered_spells found atCell remembered
          have same : later.spelledSlots contents = later.spelledSlots known := by
            have onwards : later.spelledSlots known = table.spelledSlots known :=
              List.map_congr_left fun slot member => by rw [(keeps _ (hasKnown slot member)).2]
            rw [spelled, mappedTrees_zip, onwards, knownSlots, wellFormed.bodyTrees_instance found isHead, spelledSlots,
              List.map_map]
            rfl
          have hasKnownLater (slot : Slot) (member : slot ∈ known.slots) : later.Has slot.type :=
            (keeps _ (hasKnown slot member)).1
          obtain rfl := later'.spelledSlots_injective hasSlots hasKnownLater same
          obtain rfl := wellFormed.substituteBody_unchanged (wellFormed.bodies head object isHead) values run hasKnown
          exact ⟨contents, later, later, rfl, run, refl_of SameTypes later⟩
  | object object => exact ⟨object.body, table, table, rfl, rfl, refl_of SameTypes table⟩
  | _ => exact ⟨{}, table, table, rfl, rfl, refl_of SameTypes table⟩

theorem Faithful.constituents_plainly (faithful : table.Faithful) (has : table.Has id) :
    table.AnswersPlainly (constituents id) (plainConstituents id) := by
  obtain ⟨type, found⟩ := has.exists
  have fromBody : table.AnswersPlainly (do return (← body id).slots) (do return (← plainBody id).slots) := by
    obtain ⟨contents, later, other, run, plain, same⟩ := faithful.body_plainly has
    refine ⟨contents.slots, later, other, ?_, ?_, same⟩
    · rw [bind_run_of_ok run]
      rfl
    · rw [bind_run_of_ok plain]
      rfl
  have others : table.AnswersPlainly (constituents id) (constituents id) := by
    obtain ⟨slots, later, run, -⟩ := constituents_works faithful.toWellFormed has
    exact ⟨slots, later, later, run, run, refl_of SameTypes later⟩
  unfold AnswersPlainly plainConstituents
  rw [bind_run_of_ok (fetch_run found)]
  cases type with
  | object object =>
      unfold constituents
      rw [bind_run_of_ok (fetch_run found)]
      exact fromBody
  | applied head args =>
      unfold constituents
      rw [bind_run_of_ok (fetch_run found)]
      exact fromBody
  | _ => exact others

theorem WellFormed.plainNestingWithin_eq (wellFormed : table.WellFormed) {depth : Nat} {id : Int} (has : table.Has id)
    (deep : id.toNat ≤ depth) : table.plainNestingWithin depth id = .ok (table.tree id).depth := by
  induction depth generalizing id with
  | zero => exact absurd deep (Nat.not_le_of_lt has.toNat_pos)
  | succ depth ih =>
      obtain ⟨type, found⟩ := has.exists
      have positive := (range_of_get? found).1
      have inner : type.operands.mapM (table.plainNestingWithin depth) =
          .ok (type.operands.map fun operand => (table.tree operand).depth) := by
        refine mapM_eq_map fun operand member => ?_
        obtain ⟨hasOperand, below⟩ := wellFormed.operand found member
        exact ih hasOperand (by omega)
      rw [plainNestingWithin, get_eq_ok.mpr found, ok_bind]
      dsimp only
      rw [inner, ok_bind, wellFormed.tree_eq found, depth_eq]
      simp [pure, Except.pure, Function.comp_def]

/-- A nesting depth is worked out right, and no types are made for it. -/
theorem WellFormed.nesting_plainly (wellFormed : table.WellFormed) (has : table.Has id) :
    table.AnswersPlainly (nesting id) (Attempt.ofExcept (table.plainNesting id)) := by
  obtain ⟨later, run, -⟩ := nesting_works wellFormed has
  have preserves : (nesting id).Preserves SameTypes := leads_get.bind fun _ =>
    nestingWithin_preserves (fun table id _ => sameTypes_modifyCell table id fun _ => rfl) _ id
  refine ⟨_, later, table, run, ofExcept_eq_ok.mpr ⟨wellFormed.plainNestingWithin_eq has has.toNat_le, rfl⟩, ?_⟩
  exact (preserves.of_ok run).symm

/-- A look-up follows the plain bodies, step by step. -/
theorem Faithful.fieldTypeFrom_plainly {plain : TypeTable} (faithful : table.Faithful) (same : table.SameTypes plain)
    (name : String) (fuel : Nat) (seen : List TypeId) (has : table.Has id) :
    seenBy forget (fieldTypeFrom name fuel seen id table) =
      seenBy forget (plainFieldTypeFrom name fuel seen id plain) := by
  induction fuel generalizing table plain seen id with
  | zero => exact congrArg (EStateM.Result.error Fault.exhausted) same.symm
  | succ fuel ih =>
      simp only [fieldTypeFrom, plainFieldTypeFrom]
      by_cases back : id ∈ seen
      · rw [if_pos back, if_pos back]
        exact congrArg (EStateM.Result.ok none) same.symm
      · obtain ⟨contents, later, other, run, plainly, sameLater⟩ := faithful.body_plainly has
        -- The plain body is the same in every table with these types.
        have onPlain : seenBy forget (plainBody id plain) = .ok contents other.forget := by
          rw [← needs_plainBody id plain, same, needs_plainBody id table, plainly]
          rfl
        obtain ⟨last, plainRun, sameLast⟩ := seenBy_ok.mp onPlain
        obtain ⟨result, middle, asked, later', -, -, hasSlots⟩ := body_spells faithful has
        obtain ⟨rfl, rfl⟩ := EStateM.Result.ok.inj (asked.symm.trans run)
        have onwards : middle.SameTypes last := sameLast.trans sameLater
        rw [if_neg back, if_neg back, bind_run_of_ok run, bind_run_of_ok plainRun]
        cases result.fields.find? (·.name = name) with
        | some field => exact congrArg (EStateM.Result.ok _) onwards.symm
        | none =>
            cases isBase : result.base with
            | some base => exact ih later' onwards (id :: seen) (hasSlots ⟨.base, base⟩ (by simp [Body.slots, isBase]))
            | none => exact congrArg (EStateM.Result.ok _) onwards.symm

end Answering

/-- A table whose questions are answered as if nothing was remembered. -/
structure Transparent (table : TypeTable) : Prop where
  /-- The body of an instance is the current body of its generic object, with the arguments
  put in anew. -/
  instances : ∀ id head args, table.get? id = some (.applied head args) →
    ∃ object, table.get? head = some (.object object) ∧
      table.AnswersPlainly (body id) (substituteBody (object.params.zip args) object.body)
  /-- The constituents are those of the plain body. -/
  constituents : ∀ id, table.Has id → table.AnswersPlainly (constituents id) (plainConstituents id)
  /-- The nesting depth is the one that is worked out anew. -/
  nestings : ∀ id, table.Has id → table.AnswersPlainly (nesting id) (Attempt.ofExcept (table.plainNesting id))
  /-- A field is looked up along the plain bodies: with the same answer, or without end. -/
  fields : ∀ fuel id name, table.Has id →
    seenBy forget (fieldType? fuel id name table) = seenBy forget (plainFieldType? fuel id name table)

/-- However a table was built, and whatever was asked and redefined in between, nothing that
it remembers is out of date. -/
theorem Built.transparent (built : table.Built) : table.Transparent := by
  have faithful := built.faithful
  constructor
  case instances =>
    intro id head args found
    obtain ⟨object, isHead, -, -⟩ := faithful.applied id head args found
    have answers := faithful.body_plainly (has_of_get? found)
    unfold AnswersPlainly plainBody at answers
    rw [bind_run_of_ok (fetch_run found)] at answers
    dsimp only at answers
    rw [bind_run_of_ok (fetch_run isHead)] at answers
    exact ⟨object, isHead, answers⟩
  case constituents => exact fun id has => faithful.constituents_plainly has
  case nestings => exact fun id has => faithful.nesting_plainly has
  case fields =>
    exact fun fuel id name has => faithful.fieldTypeFrom_plainly (refl_of SameTypes table) name fuel [] has

section Redefining

/-- Boxes of items and lids of boxes, which get new bodies between the questions about the
lid of boxes of `int`. -/
def relidCalls : List TableCall :=
  [.object "Box" ["T"] {}, .object "Lid" ["U"] {}, .int, .define 1 { fields := [⟨"item", 2⟩] }, .instantiate 1 [4],
    .define 3 { fields := [⟨"inner", 6⟩], base := some 4 }, .instantiate 1 [5], .instantiate 3 [7],
    .body 8, .nesting 8, .constituents 9,
    -- From here on boxes hold a sequence as well, and lids have no base.
    .wrap .seq 2, .define 1 { fields := [⟨"items", 10⟩, ⟨"first", 2⟩] }, .body 7,
    .define 3 { fields := [⟨"inner", 6⟩] }]

def relidTable : TypeTable := after {} relidCalls

theorem relidTable_built : relidTable.Built := Built.empty.after (by decide +kernel)

theorem transparent_relid :
    relidTable.AnswersPlainly (body 7) (substituteBody [(2, 5)] { fields := [⟨"items", 10⟩, ⟨"first", 2⟩] }) ∧
      relidTable.AnswersPlainly (body 8) (substituteBody [(4, 7)] { fields := [⟨"inner", 6⟩] }) ∧
      relidTable.AnswersPlainly (nesting 9) (Attempt.ofExcept (.ok 2)) := by
  have transparent := relidTable_built.transparent
  have isBox : relidTable.get? 1 =
      some (.object ⟨"Box", [2], { fields := [⟨"items", 10⟩, ⟨"first", 2⟩] }, {}⟩) := by decide +kernel
  have isLid : relidTable.get? 3 = some (.object ⟨"Lid", [4], { fields := [⟨"inner", 6⟩] }, {}⟩) := by decide +kernel
  obtain ⟨box, isHead, boxAnswers⟩ := transparent.instances 7 1 [5] (by decide +kernel)
  obtain rfl := TypeDef.object.inj (Option.some.inj (isBox.symm.trans isHead))
  obtain ⟨lid, isHead, lidAnswers⟩ := transparent.instances 8 3 [7] (by decide +kernel)
  obtain rfl := TypeDef.object.inj (Option.some.inj (isLid.symm.trans isHead))
  have depth : relidTable.plainNesting 9 = .ok 2 := by decide +kernel
  have nesting := transparent.nestings 9 (by unfold Has; decide +kernel)
  rw [depth] at nesting
  exact ⟨boxAnswers, lidAnswers, nesting⟩

example : (body 8).result? relidTable = some { fields := [⟨"inner", 9⟩] } := by decide +kernel

end Redefining
end TypeTable
end LifecycleHooks

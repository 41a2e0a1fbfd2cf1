import LifecycleHooks.Proofs.Types.FieldLookup

/-!
# Canonical type tables

A table hands out its ids one after the other, knows every structural type and every
instance by one id only, and makes each from types with smaller ids.  An operation leaves
all definitions as they are, but for an object that is given its body: a declaration is
answered with the next id, and a type that is known by its parts with the one id that it
has.  An operation that fails changes nothing.
-/

namespace LifecycleHooks

/-- The number of elements of an array. -/
def TypeDef.length? : TypeDef → Option Int
  | .array length _ => some length
  | _ => none

/-- A structural type or an instance is known by its kind, its length and its parts. -/
theorem TypeDef.eq_of_parts {type second : TypeDef} (structural : type.isStructural = true)
    (secondStructural : second.isStructural = true) (kind : type.kind = second.kind)
    (length : type.length? = second.length?) (parts : type.parts = second.parts) : type = second := by
  cases type <;> cases secondStructural : second <;>
    simp_all [isStructural, TypeDef.kind, TypeDef.length?, TypeDef.parts]

namespace TypeTable

open Attempt

/-- A table whose ids are consecutive, with one id for each structural type and each
instance, made from types with smaller ids. -/
structure Canonical (table : TypeTable) : Prop where
  consecutive : ∀ id : Int, table.Has id ↔ 1 ≤ id ∧ id ≤ table.size
  determined : ∀ id other type second, table.get? id = some type → table.get? other = some second →
    type.isStructural = true → second.isStructural = true →
      (id = other ↔ type.kind = second.kind ∧ type.length? = second.length? ∧ type.parts = second.parts)
  earlier : ∀ (id : Int) type, table.get? id = some type → type.isStructural = true →
    ∀ part ∈ type.parts, table.Has part ∧ part < id

variable {table : TypeTable} {id : TypeId}

theorem has_iff {id : Int} : table.Has id ↔ 1 ≤ id ∧ id ≤ table.size := by
  constructor
  · intro has
    obtain ⟨type, found⟩ := has.exists
    exact range_of_get? found
  · rintro ⟨positive, inside⟩
    have same : table.size = table.cells.size := rfl
    have bound : (id - 1).toNat < table.cells.size := by omega
    unfold Has get? cell?
    rw [if_pos positive, Array.getElem?_eq_getElem bound]
    rfl

theorem WellFormed.isCanonical (wellFormed : table.WellFormed) : table.Canonical where
  consecutive _ := has_iff
  determined id other type second found otherFound structural secondStructural := by
    constructor
    · rintro rfl
      obtain rfl := Option.some.inj (found.symm.trans otherFound)
      exact ⟨rfl, rfl, rfl⟩
    · rintro ⟨kind, length, parts⟩
      obtain rfl := TypeDef.eq_of_parts structural secondStructural kind length parts
      exact wellFormed.unique id other type structural found otherFound
  earlier id type found _ := wellFormed.earlier id type found

end TypeTable

namespace TableM

open TypeTable Attempt

variable {table later : TypeTable}

theorem intern_eq_ok {type : TypeDef} {id : TypeId} (run : intern type table = .ok id later) :
    later.get? id = some type := by
  unfold intern at run
  rw [get_bind_run] at run
  cases known : table.find? type with
  | some other =>
      rw [known] at run
      obtain ⟨rfl, rfl⟩ := EStateM.Result.ok.inj run
      exact get?_of_find? known
  | none =>
      rw [known] at run
      obtain ⟨rfl, rfl⟩ := EStateM.Result.ok.inj run
      exact (get?_add table type _).trans (if_pos rfl)

/-- An instance that is answered is the one that was asked for. -/
theorem instantiate_eq_ok {head id : TypeId} {args : List TypeId}
    (run : instantiate head args table = .ok id later) : later.get? id = some (.applied head args) := by
  obtain ⟨type, _, fetched, named⟩ := bind_eq_ok.mp run
  obtain ⟨found, rfl⟩ := fetch_eq_ok.mp fetched
  rw [get_bind_run] at named
  obtain ⟨name, _, isName, made⟩ := bind_eq_ok.mp named
  obtain ⟨-, rfl⟩ := ofExcept_eq_ok.mp isName
  split_ifs at made
  · cases made
  · cases made
  · exact intern_eq_ok made

theorem intern_succeeds (type : TypeDef) (table : TypeTable) : ∃ id later, intern type table = .ok id later := by
  unfold intern
  rw [get_bind_run]
  cases table.find? type with
  | some id => exact ⟨id, table, rfl⟩
  | none => exact ⟨_, _, rfl⟩

theorem builtIn_succeeds (known : TypeTable → Option TypeId) (remember : TypeId → TypeTable → TypeTable)
    (type : TypeDef) (table : TypeTable) : ∃ id later, builtIn known remember type table = .ok id later := by
  unfold builtIn
  rw [get_bind_run]
  cases known table with
  | some id => exact ⟨id, table, rfl⟩
  | none => exact ⟨_, _, rfl⟩

/-- An instance is refused before anything is made. -/
theorem instantiate_fails (wellFormed : table.WellFormed) {head : TypeId} {args : List TypeId} {fault : Fault}
    (has : table.Has head) (run : instantiate head args table = .error fault later) : later = table := by
  obtain ⟨type, found⟩ := has.exists
  obtain ⟨name, isName⟩ := ownName_answers wellFormed has
  unfold instantiate at run
  rw [bind_run_of_ok (fetch_run found), get_bind_run, bind_run_of_ok (ofExcept_eq_ok.mpr ⟨isName, rfl⟩)] at run
  split_ifs at run
  · exact (EStateM.Result.error.inj run).2.symm
  · exact (EStateM.Result.error.inj run).2.symm
  · obtain ⟨id, last, made⟩ := intern_succeeds (.applied head args) table
    cases made.symm.trans run

end TableM

namespace TableCall

open TypeTable TableM Attempt

/-- What an operation answers with, as far as it is the id of a type. -/
def answer : TableCall → TableM (Option TypeId)
  | .int => do return some (← TableM.int)
  | .bool => do return some (← TableM.bool)
  | .void => do return some (← TableM.void)
  | .unknown => do return some (← TableM.unknown)
  | .scalar name => do return some (← TableM.scalar name)
  | .typevar name => do return some (← TableM.typevar name)
  | .object name params span => do return some (← TableM.declareObject name params span)
  | .distinct name underlying span => do return some (← TableM.declareDistinct name underlying span)
  | .array length element => do return some (← TableM.array length element)
  | .tuple elements => do return some (← TableM.tuple elements)
  | .wrap wrapper inner => do return some (← TableM.wrap wrapper inner)
  | .instantiate head args => do return some (← TableM.instantiate head args)
  | .define id contents => do
      TableM.defineObject id contents
      return none
  | .body id => do
      let _ ← TableM.body id
      return none
  | .constituents id => do
      let _ ← TableM.constituents id
      return none
  | .nesting id => do
      let _ ← TableM.nesting id
      return none
  | .substitute mapping id => do return some (← TableM.substitute mapping id)
  | .fieldType fuel id name => TableM.fieldType? fuel id name

/-- The definition that a declaration gives to the next id. -/
def declares? (table : TypeTable) : TableCall → Option TypeDef
  | .scalar name => some (.scalar name)
  | .typevar name => some (.typevar name)
  | .object name params span => some (.object {
      name := name
      params := (List.range params.length).map fun (index : Nat) => table.nextId + 1 + (index : Int)
      body := {}
      span := span })
  | .distinct name underlying span => some (.distinct name underlying span)
  | _ => none

/-- The names of the type parameters that a declaration makes. -/
def declaredParams : TableCall → List String
  | .object _ params _ => params
  | _ => []

/-- The definition that is asked for by its parts. -/
def asksFor? : TableCall → Option TypeDef
  | .array length element => some (.array length element)
  | .tuple elements => some (.tuple elements)
  | .wrap wrapper inner => some (.wrap wrapper inner)
  | .instantiate head args => some (.applied head args)
  | _ => none

/-- What an operation that succeeds does to a table. -/
structure Advances (call : TableCall) (table : TypeTable) (answer : Option TypeId) (later : TypeTable) :
    Prop where
  /-- No definition changes, unless the object itself is given its body. -/
  stable : ∀ id type, table.get? id = some type → (∀ contents, call ≠ .define id contents) →
    later.get? id = some type
  /-- An object that is given its body keeps the rest of its definition. -/
  defined : ∀ id contents, call = .define id contents → ∃ object, table.get? id = some (.object object) ∧
    later.get? id = some (.object { object with body := contents })
  /-- A declaration is answered with the next id. -/
  fresh : ∀ type, call.declares? table = some type →
    answer = some table.nextId ∧ later.get? table.nextId = some type
  /-- The type parameters of an object follow it. -/
  params : ∀ (index : Nat) name, call.declaredParams[index]? = some name →
    later.get? (table.nextId + 1 + (index : Int)) = some (.typevar name)
  /-- A type that is asked for by its parts is the answer. -/
  ensured : ∀ type, call.asksFor? = some type → ∃ id, answer = some id ∧ later.get? id = some type

variable {table later : TypeTable}

theorem finish_answer (call : TableCall) (table : TypeTable) :
    call.answer.finish table = call.run.finish table := by
  have mapped {Result : Type} (action : TableM Result) (result : Result → Option TypeId) :
      (do return result (← action) : TableM (Option TypeId)).finish table = action.finish table := by
    unfold finish
    rw [bind_run]
    cases action table <;> rfl
  cases call <;> rw [answer, run]
  case define id contents => exact mapped _ fun _ => none
  all_goals rw [finish_bind_pure]
  all_goals first | exact mapped _ some | exact mapped _ fun _ => none

theorem some_eq_ok {action : TableM TypeId} {result : Option TypeId} :
    (do return some (← action) : TableM (Option TypeId)) table = .ok result later ↔
      ∃ id, result = some id ∧ action table = .ok id later := by
  rw [bind_eq_ok]
  constructor
  · rintro ⟨id, middle, run, made⟩
    obtain ⟨rfl, rfl⟩ := EStateM.Result.ok.inj made
    exact ⟨id, rfl, run⟩
  · rintro ⟨id, rfl, run⟩
    exact ⟨id, later, run, rfl⟩

/-- Only objects are given bodies. -/
theorem define_eq_ok {id : TypeId} {contents : Body} {result : Option TypeId}
    (run : (TableCall.define id contents).answer table = .ok result later) :
    ∃ object, table.get? id = some (.object object) ∧ later = table.withBody id object contents := by
  obtain ⟨_, middle, defined, made⟩ := bind_eq_ok.mp run
  obtain ⟨rfl, rfl⟩ := EStateM.Result.ok.inj made
  obtain ⟨type, between, fetched, acted⟩ := bind_eq_ok.mp defined
  obtain ⟨found, rfl⟩ := fetch_eq_ok.mp fetched
  cases type with
  | object object =>
      obtain ⟨-, rfl⟩ := EStateM.Result.ok.inj ((defineObject_run found contents).symm.trans defined)
      exact ⟨object, found, rfl⟩
  | _ =>
      dsimp only at acted
      rw [get_bind_run] at acted
      obtain ⟨name, last, -, thrown⟩ := bind_eq_ok.mp acted
      cases thrown

section Advancing

variable {call : TableCall} {result : Option TypeId}

theorem stable_of_run (built : table.Built) (run : call.answer table = .ok result later) {id : TypeId} {type : TypeDef}
    (found : table.get? id = some type) (other : ∀ contents, call ≠ .define id contents) :
    later.get? id = some type := by
  by_cases grows : call.isDefinition = false
  · have extends_ := (call.run_extends grows).finish table
    rw [← finish_answer, finish_of_ok run] at extends_
    exact extends_.get? found
  · cases call with
    | define target contents =>
        obtain ⟨object, isObject, rfl⟩ := define_eq_ok run
        have differ : id ≠ target := fun same => other contents (same ▸ rfl)
        rw [(withBody_redefines built.regular.instances isObject contents).types, if_neg differ]
        exact found
    | _ => exact absurd rfl grows

theorem fresh_of_run (run : call.answer table = .ok result later) {type : TypeDef}
    (declares : call.declares? table = some type) :
    result = some table.nextId ∧ later.get? table.nextId = some type := by
  have added (type : TypeDef) {result : Option TypeId} {later : TypeTable}
      (run : (do return some (← TableM.add type) : TableM (Option TypeId)) table = .ok result later) :
      result = some table.nextId ∧ later.get? table.nextId = some type := by
    obtain ⟨id, rfl, made⟩ := some_eq_ok.mp run
    obtain ⟨rfl, rfl⟩ := EStateM.Result.ok.inj made
    exact ⟨rfl, (get?_add table type _).trans (if_pos rfl)⟩
  cases call <;> try cases declares
  case scalar name => exact added _ run
  case typevar name => exact added _ run
  case distinct name underlying span => exact added _ run
  case object name params span =>
    obtain ⟨id, rfl, made⟩ := some_eq_ok.mp run
    obtain ⟨rfl, rfl⟩ := EStateM.Result.ok.inj ((declareObject_run table name params span).symm.trans made)
    exact ⟨rfl, (withTypevars_extends _ params).get? ((get?_add table _ _).trans (if_pos rfl))⟩

theorem params_of_run (run : call.answer table = .ok result later) {index : Nat} {name : String}
    (declared : call.declaredParams[index]? = some name) :
    later.get? (table.nextId + 1 + (index : Int)) = some (.typevar name) := by
  cases call <;> try cases declared
  case object own params span =>
    obtain ⟨id, rfl, made⟩ := some_eq_ok.mp run
    obtain ⟨rfl, rfl⟩ := EStateM.Result.ok.inj ((declareObject_run table own params span).symm.trans made)
    have follows (type : TypeDef) : ((table.add type).2.withTypevars params).get?
        (((table.add type).2.size : Int) + 1 + index) = some (.typevar name) := get?_withTypevars declared
    simp only [size_add] at follows
    exact follows _

theorem ensured_of_run (run : call.answer table = .ok result later) {type : TypeDef}
    (asks : call.asksFor? = some type) : ∃ id, result = some id ∧ later.get? id = some type := by
  cases call <;> try cases asks
  case array length element =>
    obtain ⟨id, rfl, made⟩ := some_eq_ok.mp run
    exact ⟨id, rfl, intern_eq_ok made⟩
  case tuple elements =>
    obtain ⟨id, rfl, made⟩ := some_eq_ok.mp run
    exact ⟨id, rfl, intern_eq_ok made⟩
  case wrap wrapper inner =>
    obtain ⟨id, rfl, made⟩ := some_eq_ok.mp run
    exact ⟨id, rfl, intern_eq_ok made⟩
  case instantiate head args =>
    obtain ⟨id, rfl, made⟩ := some_eq_ok.mp run
    exact ⟨id, rfl, instantiate_eq_ok made⟩

/-- An operation fails before it changes anything, unless a look-up has no end to come to. -/
theorem unchanged_of_run (built : table.Built) (has : ∀ id ∈ call.given, table.Has id) {fault : Fault}
    (run : call.answer table = .error fault later) :
    later = table ∨ fault = .exhausted ∧ ∃ fuel id name, call = .fieldType fuel id name := by
  have faithful := built.faithful
  have wellFormed := faithful.toWellFormed
  have succeeds {Result : Type} {action : TableM Result} (answer : Result → Option TypeId)
      (made : ∃ result middle, action table = .ok result middle)
      (failed : (do return answer (← action) : TableM (Option TypeId)) table = .error fault later) : later = table := by
    obtain ⟨result, middle, acted⟩ := made
    rw [bind_run_of_ok acted] at failed
    cases failed
  cases call
  case int => exact .inl (succeeds some (builtIn_succeeds _ _ _ _) run)
  case bool => exact .inl (succeeds some (builtIn_succeeds _ _ _ _) run)
  case void => exact .inl (succeeds some (builtIn_succeeds _ _ _ _) run)
  case unknown => exact .inl (succeeds some (builtIn_succeeds _ _ _ _) run)
  case scalar name => cases run
  case typevar name => cases run
  case distinct name underlying span => cases run
  case object name params span => exact .inl (succeeds some ⟨_, _, declareObject_run table name params span⟩ run)
  case array length element => exact .inl (succeeds some (intern_succeeds _ _) run)
  case tuple elements => exact .inl (succeeds some (intern_succeeds _ _) run)
  case wrap wrapper inner => exact .inl (succeeds some (intern_succeeds _ _) run)
  case instantiate head args =>
    refine .inl ?_
    cases made : TableM.instantiate head args table with
    | ok id middle => exact succeeds some ⟨id, middle, made⟩ run
    | error other middle =>
        have unchanged := instantiate_fails wellFormed (has head List.mem_cons_self) made
        rw [answer, bind_run, made] at run
        exact (EStateM.Result.error.inj run).2.symm.trans unchanged
  case define id contents =>
    refine .inl ?_
    obtain ⟨type, found⟩ := (has id List.mem_cons_self).exists
    by_cases isObject : ∃ object, type = .object object
    · obtain ⟨object, rfl⟩ := isObject
      exact succeeds (fun _ => none) ⟨_, _, defineObject_run found contents⟩ run
    · have unchanged := defineObject_unchanged found (fun object same => isObject ⟨object, same⟩) contents
      rw [← finish_of_error run, finish_answer]
      exact unchanged
  case body id =>
    obtain ⟨result, middle, asked, -⟩ := body_spells faithful (has id List.mem_cons_self)
    exact .inl (succeeds (fun _ => none) ⟨result, middle, asked⟩ run)
  case constituents id =>
    obtain ⟨slots, middle, asked, -⟩ := constituents_works wellFormed (has id List.mem_cons_self)
    exact .inl (succeeds (fun _ => none) ⟨slots, middle, asked⟩ run)
  case nesting id =>
    obtain ⟨middle, asked, -⟩ := nesting_works wellFormed (has id List.mem_cons_self)
    exact .inl (succeeds (fun _ => none) ⟨_, middle, asked⟩ run)
  case substitute mapping id =>
    by_cases assigns : mapping = []
    · subst assigns
      exact .inl (succeeds some ⟨id, table, rfl⟩ run)
    · have values : ∀ pair ∈ mapping, table.Has pair.2 := fun pair member =>
        has pair.2 (List.mem_cons_of_mem _ (List.mem_map_of_mem member))
      obtain ⟨result, middle, made, -⟩ := substitute_works wellFormed assigns values (has id List.mem_cons_self)
      exact .inl (succeeds some ⟨result, middle, made⟩ run)
  case fieldType fuel id name =>
    have walk := faithful.walk (has id List.mem_cons_self) name
    exact .inr ⟨(fieldTypeFrom_fails walk wellFormed run).1, fuel, id, name, rfl⟩

theorem advances_of_run (built : table.Built) (run : call.answer table = .ok result later) :
    call.Advances table result later where
  stable _ _ found other := stable_of_run built run found other
  defined id contents isDefinition := by
    subst isDefinition
    obtain ⟨object, isObject, rfl⟩ := define_eq_ok run
    refine ⟨object, isObject, ?_⟩
    rw [(withBody_redefines built.regular.instances isObject contents).types, if_pos rfl]
  fresh _ declares := fresh_of_run run declares
  params _ _ declared := params_of_run run declared
  ensured _ asks := ensured_of_run run asks

end Advancing
end TableCall

namespace TypeTable

open Attempt

variable {table : TypeTable}

/-- Every table that is built is canonical, and stays so: an operation that is given existing
types advances the table or fails without a change.  A look-up without an end leaves all
definitions as they are, however far it is followed. -/
theorem Built.canonical (built : table.Built) :
    table.Canonical ∧ ∀ call : TableCall, (∀ id ∈ call.given, table.Has id) →
      match call.answer table with
      | .ok answer later => later.Built ∧ call.Advances table answer later
      | .error fault later => later = table ∨ fault = .exhausted ∧
          (∃ fuel id name, call = .fieldType fuel id name) ∧ later.Built ∧ table.Extends later := by
  refine ⟨built.regular.toWellFormed.isCanonical, fun call has => ?_⟩
  have next := built.call call has
  rw [← TableCall.finish_answer] at next
  cases run : call.answer table with
  | ok answer later =>
      rw [finish_of_ok run] at next
      exact ⟨next, TableCall.advances_of_run built run⟩
  | error fault later =>
      rw [finish_of_error run] at next
      rcases TableCall.unchanged_of_run built has run with unchanged | ⟨isExhausted, isLookup⟩
      · exact .inl unchanged
      · refine .inr ⟨isExhausted, isLookup, next, ?_⟩
        obtain ⟨fuel, id, name, rfl⟩ := isLookup
        have extends_ := (TableCall.run_extends (.fieldType fuel id name) rfl).finish table
        rwa [← TableCall.finish_answer, finish_of_error run] at extends_

theorem canonical_curious :
    curiousTable.Canonical ∧ ∀ call : TableCall, (∀ id ∈ call.given, curiousTable.Has id) →
      match call.answer curiousTable with
      | .ok answer later => later.Built ∧ call.Advances curiousTable answer later
      | .error fault later => later = curiousTable ∨ fault = .exhausted ∧
          (∃ fuel id name, call = .fieldType fuel id name) ∧ later.Built ∧ curiousTable.Extends later :=
  curiousTable_built.canonical

/-- The instance of `Q` is asked for once more. -/
example : (TableCall.instantiate 2 [1]).answer.result? curiousTable = some (some 4) := by decide +kernel

end TypeTable
end LifecycleHooks

import LifecycleHooks.Proofs.Types.Canonical
import LifecycleHooks.Proofs.Types.Making

/-!
# What types are called

The ids of types tell in which order the types were made.  A type has a name that does not:
a declared type is named by its declaration, a type parameter by its owner and its position
there, and every other type by what it is made from.  The types of a table are labelled when
each has the name that its definition asks for, and no two have the same one.
-/

namespace LifecycleHooks

/-- What a type with a name of its own is called. -/
inductive Symbol where
  | scalar (name : String)
  | void
  | unknown
  | object (name : String) (params : List String) (span : Span)
  | distinct (name : String) (span : Span)
  | param (owner : String) (index : Nat) (name : String)
deriving DecidableEq, Repr

/-- What a type is called. -/
inductive Meaning where
  | named (symbol : Symbol)
  | applied (head : Symbol) (args : List Meaning)
  | array (length : Int) (element : Meaning)
  | tuple (elements : List Meaning)
  | wrap (wrapper : Wrapper) (inner : Meaning)

namespace Symbol

/-- The declaration that a symbol goes back to. -/
def owner? : Symbol → Option String
  | .object name _ _ | .distinct name _ | .param name _ _ => some name
  | .scalar _ | .void | .unknown => none

/-- The number of arguments that a type takes. -/
def arity : Symbol → Nat
  | .object _ params _ => params.length
  | _ => 0

/-- The name alone. -/
def name : Symbol → String
  | .scalar name | .object name _ _ | .distinct name _ | .param _ _ name => name
  | .void => "Void"
  | .unknown => "Unknown"

/-- The spelling of a type with a name of its own. -/
def text : Symbol → String
  | .object name params _ => if params.isEmpty then name else s!"{name}[{commaList params}]"
  | symbol => symbol.name

/-- The type parameters of a symbol, in order. -/
def params : Symbol → List Symbol
  | .object name params _ => params.zipIdx.map fun (own, index) => .param name index own
  | _ => []

theorem map_name_params (declared : String) (params : List String) (span : Span) :
    (object declared params span).params.map name = params := by
  rw [Symbol.params, List.map_map]
  exact List.zipIdx_map_fst 0 params

end Symbol

/-- What a definition tells besides the types that it is made from. -/
inductive Outline where
  | scalar (name : String)
  | void
  | unknown
  | typevar (name : String)
  | object (name : String) (span : Span)
  | distinct (name : String) (span : Span)
  | applied
  | array (length : Int)
  | tuple
  | wrap (wrapper : Wrapper)
deriving DecidableEq, Repr

/-- Whether a type of this outline is known by its ingredients. -/
def Outline.isStructural : Outline → Bool
  | .applied | .array _ | .tuple | .wrap _ => true
  | _ => false

namespace TypeDef

/-- The outline of a definition. -/
def outline : TypeDef → Outline
  | .scalar name => .scalar name
  | .void => .void
  | .unknown => .unknown
  | .typevar name => .typevar name
  | .object declared => .object declared.name declared.span
  | .distinct name _ span => .distinct name span
  | .applied .. => .applied
  | .array length _ => .array length
  | .tuple _ => .tuple
  | .wrap wrapper _ => .wrap wrapper

/-- The types that tell a type from others of its outline.  The body of an object and what
a distinct type wraps do not. -/
def ingredients : TypeDef → List TypeId
  | .scalar _ | .void | .unknown | .typevar _ | .distinct .. => []
  | .object declared => declared.params
  | .applied head args => head :: args
  | .array _ element => [element]
  | .tuple elements => elements
  | .wrap _ inner => [inner]

theorem isStructural_outline (type : TypeDef) : type.outline.isStructural = type.isStructural := by
  cases type <;> rfl

theorem eq_of_ingredients {type second : TypeDef} (structural : type.isStructural = true)
    (outline : type.outline = second.outline) (same : type.ingredients = second.ingredients) : type = second := by
  cases type <;> cases structural <;> cases second <;> cases outline <;>
    simpa [ingredients] using same

end TypeDef

namespace Meaning

/-- The spelling of a type. -/
def text : Meaning → String
  | .named symbol => symbol.text
  | .applied head args => s!"{head.name}[{commaList (args.map text)}]"
  | .array length element => s!"array[{length}, {element.text}]"
  | .tuple elements => s!"tuple[{commaList (elements.map text)}]"
  | .wrap wrapper inner => if wrapper = .seq then s!"seq[{inner.text}]" else s!"{wrapper.word} {inner.text}"

/-- The declaration that a type with a name of its own goes back to. -/
def owner? : Meaning → Option String
  | .named symbol => symbol.owner?
  | _ => none

/-- The outline of a type that is called so. -/
def outline : Meaning → Outline
  | .named (.scalar name) => .scalar name
  | .named .void => .void
  | .named .unknown => .unknown
  | .named (.param _ _ name) => .typevar name
  | .named (.object name _ span) => .object name span
  | .named (.distinct name span) => .distinct name span
  | .applied .. => .applied
  | .array length _ => .array length
  | .tuple _ => .tuple
  | .wrap wrapper _ => .wrap wrapper

/-- What the ingredients of a type that is called so are called. -/
def ingredients : Meaning → List Meaning
  | .named symbol => symbol.params.map .named
  | .applied head args => .named head :: args
  | .array _ element => [element]
  | .tuple elements => elements
  | .wrap _ inner => [inner]

theorem eq_of_ingredients {meaning further : Meaning} (structural : meaning.outline.isStructural = true)
    (outline : meaning.outline = further.outline) (same : meaning.ingredients = further.ingredients) :
    meaning = further := by
  cases further with
  | named symbol =>
      rw [outline] at structural
      cases symbol <;> cases structural
  | _ =>
      cases meaning with
      | named symbol => cases symbol <;> cases structural
      | _ => cases outline <;> simpa [ingredients] using same

end Meaning

/-- A definition asks for a meaning, when its ingredients have theirs. -/
structure Describes (label : TypeId → Meaning) (type : TypeDef) (meaning : Meaning) : Prop where
  outline : type.outline = meaning.outline
  ingredients : type.ingredients.map label = meaning.ingredients

/-- What a meaning has to be for a definition, constructor by constructor. -/
def TypeDef.Asks (label : TypeId → Meaning) : TypeDef → Meaning → Prop
  | .scalar name, meaning => meaning = .named (.scalar name)
  | .void, meaning => meaning = .named .void
  | .unknown, meaning => meaning = .named .unknown
  | .typevar name, meaning => ∃ owner index, meaning = .named (.param owner index name)
  | .object declared, meaning => ∃ params, meaning = .named (.object declared.name params declared.span) ∧
      declared.params.map label = (Symbol.object declared.name params declared.span).params.map .named
  | .distinct name _ span, meaning => meaning = .named (.distinct name span)
  | .applied head args, meaning => ∃ symbol, label head = .named symbol ∧ meaning = .applied symbol (args.map label)
  | .array length element, meaning => meaning = .array length (label element)
  | .tuple elements, meaning => meaning = .tuple (elements.map label)
  | .wrap wrapper inner, meaning => meaning = .wrap wrapper (label inner)

section Describing

variable {label other : TypeId → Meaning} {type second : TypeDef} {meaning further : Meaning}

theorem Describes.congr (describes : Describes label type meaning)
    (agree : ∀ id ∈ type.ingredients, other id = label id) : Describes other type meaning :=
  ⟨describes.outline, (List.map_congr_left agree).trans describes.ingredients⟩

/-- A type that is known by its parts has one meaning. -/
theorem Describes.unique (structural : type.isStructural = true) (describes : Describes label type meaning)
    (also : Describes label type further) : meaning = further := by
  refine Meaning.eq_of_ingredients ?_ (describes.outline.symm.trans also.outline)
    (describes.ingredients.symm.trans also.ingredients)
  rw [← describes.outline, type.isStructural_outline, structural]

theorem Describes.asks (describes : Describes label type meaning) : type.Asks label meaning := by
  obtain ⟨outline, ingredients⟩ := describes
  cases meaning with
  | named symbol =>
      cases symbol <;> cases type <;> cases outline <;>
        first | rfl | exact ⟨_, _, rfl⟩ | exact ⟨_, rfl, ingredients⟩
  | applied symbol args =>
      cases type <;> cases outline
      obtain ⟨head, rest⟩ := List.cons.inj ingredients
      exact ⟨symbol, head, congrArg _ rest.symm⟩
  | tuple elements =>
      cases type <;> cases outline
      exact congrArg _ ingredients.symm
  | _ =>
      cases type <;> cases outline
      exact congrArg _ (List.cons.inj ingredients).1.symm

end Describing

namespace TypeTable

open Attempt

/-- The types of a table are called what their definitions ask for, each by a name of its own. -/
structure Called (table : TypeTable) (label : TypeId → Meaning) : Prop where
  describes : ∀ id type, table.get? id = some type → Describes label type (label id)
  distinct : ∀ id other, table.Has id → table.Has other → label id = label other → id = other
  unknown : ∀ id, table.unknown? = some id ↔ table.get? id = some .unknown

/-- A proper table whose types have names. -/
structure Labelled (table : TypeTable) (label : TypeId → Meaning) : Prop extends
    Proper table, Called table label

/-- What the types of a table are called. -/
def meanings (table : TypeTable) (label : TypeId → Meaning) : Set Meaning :=
  {meaning | ∃ id, table.Has id ∧ label id = meaning}

/-- A larger table calls the earlier types what they were called before, and its new types
by these names. -/
structure Names (table : TypeTable) (label : TypeId → Meaning) (larger : TypeTable) (further : TypeId → Meaning)
    (made : List Meaning) : Prop where
  extends_ : table.Extends larger
  agree : ∀ id, table.Has id → further id = label id
  meanings : larger.meanings further = table.meanings label ∪ {meaning | meaning ∈ made}

/-- An existing type that is called so. -/
def Means (table : TypeTable) (label : TypeId → Meaning) (id : TypeId) (meaning : Meaning) : Prop :=
  table.Has id ∧ label id = meaning

/-- What is called so exists as before. -/
def Retains (table : TypeTable) (label : TypeId → Meaning) (larger : TypeTable) (further : TypeId → Meaning) : Prop :=
  ∀ id meaning, table.Means label id meaning → larger.Means further id meaning

variable {table larger last : TypeTable} {label further later : TypeId → Meaning} {id : TypeId} {type : TypeDef}
  {meaning : Meaning} {made others : List Meaning}

theorem Names.refl (table : TypeTable) (label : TypeId → Meaning) : table.Names label table label [] :=
  ⟨.refl table, fun _ _ => rfl, by simp⟩

theorem Names.trans (first : table.Names label larger further made)
    (second : larger.Names further last later others) : table.Names label last later (made ++ others) := by
  refine ⟨first.extends_.trans second.extends_, fun id has => ?_, ?_⟩
  · exact (second.agree id (has.extends_ first.extends_)).trans (first.agree id has)
  · rw [second.meanings, first.meanings, Set.union_assoc]
    congr 1
    ext meaning
    simp

theorem Means.names (means : table.Means label id meaning) (names : table.Names label larger further made) :
    larger.Means further id meaning :=
  ⟨means.1.extends_ names.extends_, (names.agree id means.1).trans means.2⟩

theorem Retains.refl (table : TypeTable) (label : TypeId → Meaning) : table.Retains label table label :=
  fun _ _ means => means

theorem Retains.trans (first : table.Retains label larger further)
    (second : larger.Retains further last later) : table.Retains label last later :=
  fun id meaning means => second id meaning (first id meaning means)

theorem Retains.option (retains : table.Retains label larger further) {id? : Option TypeId} {meaning? : Option Meaning}
    (means : Option.Rel (table.Means label) id? meaning?) : Option.Rel (larger.Means further) id? meaning? := by
  cases means with
  | none => exact .none
  | some means => exact .some (retains _ _ means)

theorem Names.retains (names : table.Names label larger further made) : table.Retains label larger further :=
  fun _ _ means => means.names names

theorem Regular.has_ingredient (regular : table.Regular) (found : table.get? id = some type) :
    ∀ part ∈ type.ingredients, table.Has part := by
  intro part member
  cases type with
  | object declared => exact regular.paramsKnown id declared found part member
  | applied head args => exact (regular.earlier id _ found part member).1
  | array length element => exact (regular.earlier id _ found part member).1
  | tuple elements => exact (regular.earlier id _ found part member).1
  | wrap wrapper inner => exact (regular.earlier id _ found part member).1
  | _ => cases member

/-- What future types are to be called may be settled beforehand. -/
theorem Labelled.relabel (labelled : table.Labelled label) (agree : ∀ id, table.Has id → further id = label id) :
    table.Labelled further ∧ table.meanings further = table.meanings label := by
  refine ⟨⟨labelled.toProper, fun id type found => ?_, fun id other has hasOther same => ?_, labelled.unknown⟩, ?_⟩
  · rw [agree id (has_of_get? found)]
    exact (labelled.describes id type found).congr fun part member =>
      agree part (labelled.has_ingredient found part member)
  · rw [agree id has, agree other hasOther] at same
    exact labelled.distinct id other has hasOther same
  · ext meaning
    constructor
    · rintro ⟨id, has, rfl⟩
      exact ⟨id, has, (agree id has).symm⟩
    · rintro ⟨id, has, rfl⟩
      exact ⟨id, has, agree id has⟩

theorem not_has_nextId (table : TypeTable) : ¬ table.Has table.nextId := by
  rw [has_iff]
  simp only [nextId]
  omega

/-- A further type may be called what its definition asks for, if no other type is. -/
theorem Called.push (called : table.Called label)
    (types : ∀ id, larger.get? id = if id = table.nextId then some type else table.get? id)
    (unknown : ∀ id, larger.unknown? = some id ↔ larger.get? id = some .unknown)
    (describes : Describes label type (label table.nextId)) (new : label table.nextId ∉ table.meanings label) :
    larger.Called label ∧ larger.meanings label = table.meanings label ∪ {label table.nextId} := by
  have has (id : TypeId) : larger.Has id ↔ id = table.nextId ∨ table.Has id := by
    unfold Has
    rw [types]
    split <;> simp [*]
  refine ⟨⟨fun id type found => ?_, fun id other hasId hasOther same => ?_, unknown⟩, ?_⟩
  · rw [types] at found
    split at found
    · subst id
      obtain rfl := Option.some.inj found
      exact describes
    · exact called.describes id type found
  · rcases (has id).mp hasId with rfl | before <;> rcases (has other).mp hasOther with rfl | otherBefore
    · rfl
    · exact absurd ⟨other, otherBefore, same.symm⟩ new
    · exact absurd ⟨id, before, same⟩ new
    · exact called.distinct id other before otherBefore same
  · ext meaning
    constructor
    · rintro ⟨id, hasId, rfl⟩
      rcases (has id).mp hasId with rfl | before
      · exact .inr rfl
      · exact .inl ⟨id, before, rfl⟩
    · rintro (⟨id, before, rfl⟩ | rfl)
      · exact ⟨id, (has id).mpr (.inr before), rfl⟩
      · exact ⟨_, (has _).mpr (.inl rfl), rfl⟩

/-- A further type may be given a name that no type has yet. -/
theorem Labelled.pushNamed (labelled : table.Labelled label) (proper : larger.Proper) (extends_ : table.Extends larger)
    (types : ∀ id, larger.get? id = if id = table.nextId then some type else table.get? id)
    (unknown : ∀ id, larger.unknown? = some id ↔ larger.get? id = some .unknown)
    (describes : Describes label type meaning) (ingredients : ∀ part ∈ type.ingredients, table.Has part)
    (new : meaning ∉ table.meanings label) :
    ∃ further, larger.Labelled further ∧ table.Names label larger further [meaning] ∧
      larger.Means further table.nextId meaning := by
  let further := Function.update label table.nextId meaning
  have agree (id : TypeId) (has : table.Has id) : further id = label id := by
    refine Function.update_of_ne ?_ _ _
    rintro rfl
    exact table.not_has_nextId has
  have here : further table.nextId = meaning := Function.update_self _ _ _
  obtain ⟨relabelled, same⟩ := labelled.relabel agree
  have asked : Describes further type (further table.nextId) :=
    here ▸ describes.congr fun part member => agree part (ingredients part member)
  obtain ⟨result, meanings⟩ := relabelled.push types unknown asked (by rwa [here, same])
  refine ⟨further, ⟨proper, result⟩, ⟨extends_, agree, ?_⟩, ?_, here⟩
  · rw [meanings, same, here]
    simp
  · have found : larger.get? table.nextId = some type := by rw [types, if_pos rfl]
    exact has_of_get? found

/-- A computation answers with the type that is called so, after making types of these names. -/
def Gives (action : TableM TypeId) (table : TypeTable) (label : TypeId → Meaning) (meaning : Meaning)
    (made : List Meaning) : Prop :=
  ∃ id larger further, action table = .ok id larger ∧ larger.Labelled further ∧
    table.Names label larger further made ∧ larger.Means further id meaning

/-- No type but the unknown one is made without being remembered. -/
theorem Called.unknown_add (called : table.Called label) (known : type ≠ .unknown) (id : TypeId) :
    (table.add type).2.unknown? = some id ↔ (table.add type).2.get? id = some .unknown := by
  rw [get?_add]
  split
  · subst id
    have absent : table.unknown? ≠ some ((table.size : Int) + 1) := fun found =>
      table.not_has_nextId (has_of_get? ((called.unknown _).mp found))
    exact ⟨fun found => absurd found absent, fun found => absurd (Option.some.inj found) known⟩
  · exact called.unknown id

section Params

theorem nextId_add (table : TypeTable) (type : TypeDef) : (table.add type).2.nextId = table.nextId + 1 := by
  change ((table.add type).2.size : Int) + 1 = (table.size : Int) + 1 + 1
  rw [size_add]
  omega

/-- The type parameters of an object follow each other. -/
theorem Called.pushTypevars {owner : String} {names : List String} {start : Nat} (called : table.Called label)
    (names_ : ∀ (index : Nat) name, names[index]? = some name →
      label (table.nextId + index) = .named (.param owner (start + index) name))
    (new : ∀ index name, start ≤ index → .named (.param owner index name) ∉ table.meanings label) :
    (table.withTypevars names).Called label ∧
      (table.withTypevars names).meanings label = table.meanings label ∪
        {meaning | meaning ∈ (names.zipIdx start).map fun entry => .named (.param owner entry.2 entry.1)} := by
  induction names generalizing table start with
  | nil => exact ⟨called, by simp [withTypevars]⟩
  | cons name names ih =>
      have first : label table.nextId = .named (.param owner start name) := by
        have here := names_ 0 name rfl
        simpa using here
      obtain ⟨pushed, meanings⟩ := called.push (get?_add table (.typevar name)) (called.unknown_add (by simp))
        ⟨by rw [first]; rfl, by rw [first]; rfl⟩
        (by rw [first]; exact new start name le_rfl)
      have calledNext : ∀ (index : Nat) other, names[index]? = some other →
          label ((table.add (.typevar name)).2.nextId + index) = .named (.param owner (start + 1 + index) other) := by
        intro index other named
        have behind := names_ (index + 1) other named
        have sameId : table.nextId + ((index + 1 : Nat) : Int) = table.nextId + 1 + (index : Int) := by
          rw [Nat.cast_succ, ← Int.add_assoc, Int.add_right_comm]
        rwa [sameId, ← Nat.add_assoc, Nat.add_right_comm, ← nextId_add table (.typevar name)] at behind
      have newNext : ∀ index other, start + 1 ≤ index →
          .named (.param owner index other) ∉ (table.add (.typevar name)).2.meanings label := by
        intro index other behind
        rw [meanings, first]
        rintro (before | same)
        · exact new index other (by omega) before
        · have equal := Symbol.param.inj (Meaning.named.inj same)
          omega
      obtain ⟨last, further⟩ := ih pushed calledNext newNext
      refine ⟨last, further.trans ?_⟩
      rw [meanings, first, Set.union_assoc, List.zipIdx_cons]
      congr 1
      ext meaning
      simp

end Params

end TypeTable

namespace TableM

open TypeTable Attempt

variable {table larger : TypeTable} {label further : TypeId → Meaning} {id : TypeId} {type : TypeDef}
  {meaning : Meaning}

section Giving

/-- Asking for a type that was made before changes nothing. -/
theorem gives_known {action : TableM TypeId} (labelled : table.Labelled label) (run : action table = .ok id table)
    (has : table.Has id) (same : label id = meaning) : Gives action table label meaning [meaning] := by
  refine ⟨id, table, label, run, labelled, ⟨.refl table, fun _ _ => rfl, ?_⟩, has, same⟩
  have before : meaning ∈ table.meanings label := ⟨id, has, same⟩
  ext other
  simp only [Set.mem_union, Set.mem_ofPred_eq, List.mem_singleton]
  exact ⟨.inl, fun either => either.elim (fun inside => inside) fun equal => equal ▸ before⟩

/-- A type that is known by its parts is given under its one name. -/
theorem intern_gives (labelled : table.Labelled label) (structural : type.isStructural = true)
    (parts : ∀ part ∈ type.parts, table.Has part)
    (applied : ∀ head args, type = .applied head args → ∃ object,
      table.get? head = some (.object object) ∧ object.params ≠ [] ∧
        args.length = object.params.length)
    (describes : Describes label type meaning) : Gives (intern type) table label meaning [meaning] := by
  have ingredients : type.ingredients = type.parts := by
    cases type <;> cases structural <;> rfl
  cases known : table.find? type with
  | some id =>
      have found := get?_of_find? known
      have run : intern type table = .ok id table := by
        unfold intern
        rw [get_bind_run, known]
        rfl
      have same : label id = meaning := (labelled.describes id type found).unique structural describes
      exact gives_known labelled run (has_of_get? found) same
  | none =>
      have run : intern type table = .ok table.nextId (table.add type).2 := by
        unfold intern
        rw [get_bind_run, known]
        rfl
      have proper := ((intern_makes labelled.toProper structural parts applied).of_ok run).1.1
      have new : meaning ∉ table.meanings label := by
        rintro ⟨id, has, rfl⟩
        obtain ⟨second, found⟩ := has.exists
        have also := labelled.describes id second found
        -- Two types of one name are made from the same types.
        have same : type = second := by
          refine TypeDef.eq_of_ingredients structural (describes.outline.trans also.outline.symm) ?_
          refine eq_of_map_eq (fun first inside other member => labelled.distinct first other ?_ ?_)
            (describes.ingredients.trans also.ingredients.symm)
          · exact parts first (ingredients ▸ inside)
          · exact labelled.has_ingredient found other member
        exact get?_ne_of_find?_eq_none known id (same ▸ found)
      obtain ⟨further, result, names, means⟩ := labelled.pushNamed proper (extends_add table type)
        (get?_add table type) (labelled.unknown_add (by rintro rfl; cases structural)) describes
        (ingredients ▸ parts) new
      exact ⟨_, _, further, run, result, names, means⟩

/-- An instance is called by its head and its arguments. -/
theorem instantiate_gives (labelled : table.Labelled label) {args : List TypeId} {symbol : Symbol}
    (found : table.get? id = some type) (called : label id = .named symbol)
    (sameLength : args.length = type.typeParams.length) (generic : args ≠ []) (has : ∀ arg ∈ args, table.Has arg) :
    Gives (instantiate id args) table label (.applied symbol (args.map label)) [.applied symbol (args.map label)] := by
  obtain ⟨object, rfl, params⟩ := exists_object_of_args sameLength generic
  have described : Describes label (.applied id args) (.applied symbol (args.map label)) :=
    ⟨rfl, congrArg (· :: args.map label) called⟩
  unfold TypeTable.Gives
  rw [instantiate_run found params sameLength]
  refine intern_gives labelled rfl ?_ ?_ described
  · exact List.forall_mem_cons.mpr ⟨has_of_get? found, has⟩
  · rintro _ _ ⟨⟩
    exact ⟨object, found, params, sameLength⟩

theorem unknown_gives (labelled : table.Labelled label) :
    Gives unknown table label (.named .unknown) [.named .unknown] := by
  cases known : table.unknown? with
  | some id =>
      have run : unknown table = .ok id table := by
        unfold unknown builtIn
        rw [get_bind_run]
        dsimp only
        rw [known]
        rfl
      have found := (labelled.unknown id).mp known
      have described := (labelled.describes id _ found).outline
      have same : label id = .named .unknown := by
        cases called : label id with
        | named symbol => cases symbol <;> simp_all [TypeDef.outline, Meaning.outline]
        | _ => simp_all [TypeDef.outline, Meaning.outline]
      exact gives_known labelled run (has_of_get? found) same
  | none =>
      let larger : TypeTable := { (table.add .unknown).2 with unknown? := some table.nextId }
      have run : unknown table = .ok table.nextId larger := by
        unfold unknown builtIn
        rw [get_bind_run]
        dsimp only
        rw [known]
        rfl
      have proper := ((unknown_makes labelled.toProper).of_ok run).1
      have types : ∀ id, larger.get? id = if id = table.nextId then some .unknown else table.get? id :=
        get?_add table .unknown
      have absent (id : TypeId) : table.get? id ≠ some .unknown := fun found => by
        have remembered := (labelled.unknown id).mpr found
        rw [known] at remembered
        cases remembered
      have remembered : ∀ id, larger.unknown? = some id ↔ larger.get? id = some .unknown := by
        intro id
        rw [types]
        split
        · subst id
          exact ⟨fun _ => rfl, fun _ => rfl⟩
        · rename_i other
          exact ⟨fun same => absurd (Option.some.inj same).symm other, fun found => absurd found (absent id)⟩
      have new : Meaning.named .unknown ∉ table.meanings label := by
        rintro ⟨id, has, same⟩
        obtain ⟨second, found⟩ := has.exists
        have described := (labelled.describes id second found).outline
        rw [same] at described
        have isUnknown : second = .unknown := by
          cases second <;> first | rfl | cases described
        exact absent id (isUnknown ▸ found)
      obtain ⟨further, result, names, means⟩ := labelled.pushNamed proper.1 proper.2 types remembered
        ⟨rfl, rfl⟩ (by simp [TypeDef.ingredients]) new
      exact ⟨_, _, further, run, result, names, means⟩

/-- A declared distinct type is called by its declaration. -/
theorem declareDistinct_gives (labelled : table.Labelled label) {name : String} {underlying : TypeId} {span : Span}
    (has : table.Has underlying) (new : .named (.distinct name span) ∉ table.meanings label) :
    Gives (declareDistinct name underlying span) table label (.named (.distinct name span))
      [.named (.distinct name span)] := by
  have parts : ∀ part ∈ (TypeDef.distinct name underlying span).parts, table.Has part := by
    simpa [TypeDef.parts] using has
  have run : declareDistinct name underlying span table = .ok table.nextId (table.add _).2 := rfl
  have proper := (labelled.toProper.grows (labelled.addNamed rfl (by simp) parts) (extends_add table _) rfl).1
  obtain ⟨further, result, names, means⟩ := labelled.pushNamed proper (extends_add table _) (get?_add table _)
    (labelled.unknown_add (by simp)) ⟨rfl, rfl⟩ (by simp [TypeDef.ingredients]) new
  exact ⟨_, _, further, run, result, names, means⟩

theorem get?_of_declareDistinct {name : String} {underlying : TypeId} {span : Span}
    (run : declareDistinct name underlying span table = .ok id larger) :
    larger.get? id = some (.distinct name underlying span) := by
  obtain ⟨rfl, rfl⟩ := EStateM.Result.ok.inj run
  exact (get?_add table _ _).trans (if_pos rfl)

/-- A declared object is called by its declaration, and so are its type parameters. -/
theorem declareObject_gives (labelled : table.Labelled label) {name : String} {params : List String} {span : Span}
    (new : ∀ meaning ∈ table.meanings label, meaning.owner? ≠ some name) :
    Gives (declareObject name params span) table label (.named (.object name params span))
      (.named (.object name params span) :: (Symbol.object name params span).params.map .named) := by
  classical
  let further : TypeId → Meaning := fun id =>
    if table.Has id then label id
    else if id = table.nextId then .named (.object name params span)
    else .named (.param name (id - table.nextId - 1).toNat (params.getD (id - table.nextId - 1).toNat ""))
  have agree (id : TypeId) (has : table.Has id) : further id = label id := if_pos has
  have here : further table.nextId = .named (.object name params span) := by
    simp [further, table.not_has_nextId]
  have calledNext (index : Nat) (param : String) (named : params[index]? = some param) :
      further (table.nextId + 1 + (index : Int)) = .named (.param name index param) := by
    have next : @Eq Int table.nextId (table.size + 1) := rfl
    have beyond : ¬ table.Has (table.nextId + 1 + (index : Int)) := by
      rw [has_iff]
      omega
    have differ : table.nextId + 1 + (index : Int) ≠ table.nextId := by
      change (table.size : Int) + 1 + 1 + index ≠ table.size + 1
      omega
    have position : (table.nextId + 1 + (index : Int) - table.nextId - 1).toNat = index := by
      change ((table.size : Int) + 1 + 1 + index - (table.size + 1) - 1).toNat = index
      omega
    simp only [further, if_neg beyond, if_neg differ, position]
    simp [List.getD_eq_getElem?_getD, named]
  obtain ⟨relabelled, same⟩ := labelled.relabel agree
  let object : TypeDef := .object {
    name := name
    params := (List.range params.length).map fun (index : Nat) => table.nextId + 1 + (index : Int)
    body := {}
    span := span }
  have asked : Describes further object (further table.nextId) := by
    rw [here]
    refine ⟨rfl, ?_⟩
    refine List.ext_getElem (by simp [object, TypeDef.ingredients, Meaning.ingredients, Symbol.params])
      fun index inside _ => ?_
    have bound : index < params.length := by simpa [object, TypeDef.ingredients] using inside
    simpa [object, TypeDef.ingredients, Meaning.ingredients, Symbol.params] using
      calledNext index params[index] (List.getElem?_eq_getElem bound)
  have newHere : further table.nextId ∉ table.meanings further := by
    rw [same, here]
    exact fun before => new _ before rfl
  obtain ⟨pushed, meanings⟩ := relabelled.push (get?_add table object)
    (labelled.unknown_add (by simp [object])) asked newHere
  have newParams : ∀ index param, 0 ≤ index → .named (.param name index param) ∉ (table.add object).2.meanings further := by
    intro index param _
    rw [meanings, same, here]
    rintro (before | equal)
    · exact new _ before rfl
    · cases equal
  obtain ⟨last, names⟩ := pushed.pushTypevars (fun index param named => by
    rw [nextId_add, Nat.zero_add]
    exact calledNext index param named) newParams
  have extends_ : table.Extends (table.withObject name params span) :=
    (extends_add table object).trans (withTypevars_extends _ params)
  have declared : (table.withObject name params span).get? table.nextId = some object :=
    (withTypevars_extends _ params).get? ((get?_add table object _).trans (if_pos rfl))
  have run := declareObject_run table name params span
  have proper := ((declareObject_yields labelled.toProper name params span).of_ok run).1.1
  refine ⟨_, _, further, run, ⟨proper, last⟩, ⟨extends_, agree, ?_⟩,
    has_of_get? declared, here⟩
  refine names.trans ?_
  rw [meanings, same, here, Set.union_assoc]
  congr 1
  ext meaning
  simp [Symbol.params]

/-- Giving an object a body changes no names. -/
theorem withBody_labelled (labelled : table.Labelled label) {object : ObjectType} {contents : Body}
    (found : table.get? id = some (.object object)) (has : ∀ slot ∈ contents.slots, table.Has slot.type) :
    (table.withBody id object contents).Labelled label ∧
      (table.withBody id object contents).meanings label = table.meanings label := by
  have redefines := withBody_redefines labelled.instances found contents
  have proper := ((defineObject_yields labelled.toProper ⟨object, found⟩ has).of_ok (defineObject_run found contents)).1.1
  refine ⟨⟨proper, fun other type known => ?_, fun first second => ?_, fun other => ?_⟩, ?_⟩
  · rw [redefines.types] at known
    split at known
    · subst other
      obtain rfl := Option.some.inj known
      have described := labelled.describes id _ found
      exact ⟨described.outline, described.ingredients⟩
    · exact labelled.describes other type known
  · rw [redefines.has_eq]
    exact labelled.distinct first second
  · have same : (table.withBody id object contents).unknown? = table.unknown? := by
      unfold withBody modifyCell
      split <;> rfl
    rw [redefines.get?_iff (by simp), same]
    exact labelled.unknown other
  · unfold meanings
    rw [redefines.has_eq]

end Giving

section Spelling

/-- A type with a name of its own goes by that name alone. -/
theorem ownName_labelled (labelled : table.Labelled label) {symbol : Symbol} (has : table.Has id)
    (called : label id = .named symbol) : table.ownName id = .ok symbol.name := by
  obtain ⟨type, found⟩ := has.exists
  have described := (labelled.describes id type found).asks
  rw [called] at described
  unfold ownName
  rw [get_eq_ok.mpr found]
  cases type with
  | typevar name =>
      obtain ⟨owner, index, same⟩ := described
      obtain rfl := Meaning.named.inj same
      rfl
  | object declared =>
      obtain ⟨params, same, -⟩ := described
      obtain rfl := Meaning.named.inj same
      rfl
  | applied head args =>
      obtain ⟨head, -, same⟩ := described
      cases same
  | array length element => cases described
  | tuple elements => cases described
  | wrap wrapper inner => cases described
  | _ =>
      obtain rfl := Meaning.named.inj described
      rfl

/-- An instance goes by the name of its head. -/
theorem ownName_applied (labelled : table.Labelled label) {head : TypeId} {args : List TypeId} {symbol : Symbol}
    (found : table.get? id = some (.applied head args)) (named : label head = .named symbol) :
    table.ownName id = .ok symbol.name := by
  obtain ⟨object, isHead, -, -⟩ := labelled.applied id head args found
  have headNamed := ownName_labelled labelled (has_of_get? isHead) named
  unfold ownName at headNamed ⊢
  rw [get_eq_ok.mpr isHead, ok_bind] at headNamed
  rw [get_eq_ok.mpr found, ok_bind]
  dsimp only
  rw [get_eq_ok.mpr isHead, ok_bind]
  exact headNamed

/-- Types with names of their own go by those names. -/
theorem ownNames_labelled (labelled : table.Labelled label) {ids : List TypeId} {symbols : List Symbol}
    (has : ∀ id ∈ ids, table.Has id) (called : ids.map label = symbols.map .named) :
    ids.mapM table.ownName = .ok (symbols.map Symbol.name) := by
  induction ids generalizing symbols with
  | nil =>
      obtain rfl := List.map_eq_nil_iff.mp called.symm
      rfl
  | cons id ids ih =>
      obtain ⟨hasHere, hasOthers⟩ := List.forall_mem_cons.mp has
      obtain ⟨symbol, others, rfl, here, behind⟩ := List.map_eq_cons_iff.mp called.symm
      rw [List.mapM_cons, ownName_labelled labelled hasHere here.symm, ih hasOthers behind.symm]
      rfl

theorem spellWithin_labelled (labelled : table.Labelled label) {depth : Nat} {id : Int} (has : table.Has id)
    (deep : id.toNat ≤ depth) : table.spellWithin depth id = .ok (label id).text := by
  induction depth generalizing id with
  | zero => exact absurd deep (Nat.not_le_of_lt has.toNat_pos)
  | succ depth ih =>
      obtain ⟨type, found⟩ := has.exists
      have positive := (range_of_get? found).1
      have operandSpells : ∀ operand ∈ type.operands, table.spellWithin depth operand = .ok (label operand).text := by
        intro operand member
        obtain ⟨hasOperand, below⟩ := labelled.operand found member
        exact ih hasOperand (by omega)
      have described := (labelled.describes id type found).asks
      unfold spellWithin
      rw [get_eq_ok.mpr found, ok_bind]
      cases type with
      | array length element =>
          have inner := operandSpells element (by simp [TypeDef.operands])
          rw [described]
          dsimp only
          rw [inner, ok_bind, Meaning.text]
          rfl
      | tuple elements =>
          have inner : elements.mapM (table.spellWithin depth) = .ok (elements.map fun part => (label part).text) :=
            mapM_eq_map operandSpells
          rw [described]
          dsimp only
          rw [inner, ok_bind, Meaning.text, List.map_map]
          rfl
      | wrap wrapper operand =>
          have inner := operandSpells operand (by simp [TypeDef.operands])
          rw [described]
          cases wrapper <;> (dsimp only; rw [inner, ok_bind, Meaning.text]; rfl)
      | applied head args =>
          obtain ⟨symbol, named, same⟩ := described
          have inner : args.mapM (table.spellWithin depth) = .ok (args.map fun arg => (label arg).text) :=
            mapM_eq_map operandSpells
          rw [same]
          dsimp only
          rw [ownName_applied labelled found named, ok_bind, inner, ok_bind, Meaning.text, List.map_map]
          rfl
      | object declared =>
          obtain ⟨params, same, called⟩ := described
          have alike : declared.params.isEmpty = params.isEmpty := by
            have lengths := congrArg List.length called
            simp only [List.length_map, Symbol.params, List.length_zipIdx] at lengths
            rw [Bool.eq_iff_iff, List.isEmpty_iff_length_eq_zero, List.isEmpty_iff_length_eq_zero, lengths]
          rw [same]
          dsimp only
          rw [alike, Meaning.text, Symbol.text]
          split
          · rfl
          · rw [ownNames_labelled labelled (labelled.paramsKnown id declared found) called, ok_bind,
              Symbol.map_name_params]
            rfl
      | _ =>
          first
          | obtain ⟨owner, index, same⟩ := described
            rw [same, Meaning.text]
            exact ownName_labelled labelled has same
          | rw [described, Meaning.text]
            exact ownName_labelled labelled has described

/-- A type is spelled as its name says. -/
theorem spell_labelled (labelled : table.Labelled label) (has : table.Has id) :
    table.spell id = .ok (label id).text :=
  spellWithin_labelled labelled has has.toNat_le

end Spelling
end TableM
end LifecycleHooks

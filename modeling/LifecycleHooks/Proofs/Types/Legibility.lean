import LifecycleHooks.Proofs.Lifting.PlaceText
import LifecycleHooks.Proofs.Types.Adding

/-!
# Legible type tables

In a legible table, types and fields have plain names, and no two fields of a body have the
same one.  No parenthesis occurs in the spelling of its types, although brackets and commas do.
A table stays legible when structural types are made and bodies of instances are worked out.
-/

namespace LifecycleHooks

open Attempt

/-- The name that a type was declared with. -/
def TypeDef.givenName? : TypeDef → Option String
  | .scalar name | .typevar name | .distinct name .. => some name
  | .object declared => some declared.name
  | .void | .unknown | .applied .. | .array .. | .tuple _ | .wrap .. => none

/-- A body whose fields have plain names, each its own. -/
structure Body.IsLegible (body : Body) : Prop where
  plain : ∀ field ∈ body.fields, IsPlain field.name
  distinct : (body.fields.map Field.name).Nodup

/-- A type with a plain name, if it has one, and a legible body, if it is an object. -/
structure TypeDef.IsLegible (type : TypeDef) : Prop where
  name : ∀ name, type.givenName? = some name → IsPlain name
  body : ∀ declared, type = .object declared → declared.body.IsLegible

/-- A type that is legible, with a legible body if one is remembered. -/
structure Cell.IsLegible (cell : Cell) : Prop where
  type : cell.type.IsLegible
  body : ∀ body, cell.body = some body → body.IsLegible

theorem Body.isLegible_empty : Body.IsLegible {} := ⟨by simp, by simp⟩

/-- What names the fields have is all that counts. -/
theorem Body.IsLegible.of_names {body other : Body} (legible : body.IsLegible)
    (same : other.fields.map Field.name = body.fields.map Field.name) : other.IsLegible where
  plain field member := by
    have named : field.name ∈ other.fields.map Field.name := List.mem_map_of_mem member
    rw [same] at named
    obtain ⟨before, isField, sameName⟩ := List.mem_map.mp named
    exact sameName ▸ legible.plain before isField
  distinct := same ▸ legible.distinct

theorem TypeDef.isLegible_of_unnamed {type : TypeDef} (unnamed : type.givenName? = none) : type.IsLegible where
  name := by simp [unnamed]
  body := by
    rintro declared rfl
    cases unnamed

theorem TypeDef.isLegible_of_named {type : TypeDef} {name : String} (named : type.givenName? = some name)
    (plain : IsPlain name) (noObject : ∀ declared, type ≠ .object declared) : type.IsLegible where
  name other isOther := by
    rw [named] at isOther
    exact Option.some.inj isOther ▸ plain
  body declared isObject := absurd isObject (noObject declared)

/-- A type that is made from others has no name. -/
theorem TypeDef.isLegible_of_structural {type : TypeDef} (structural : type.isStructural = true) :
    type.IsLegible := by
  refine isLegible_of_unnamed ?_
  cases type <;> first | rfl | cases structural

namespace TypeTable

/-- All names in a table are plain, and the fields of a body are told apart by theirs. -/
def Legible (table : TypeTable) : Prop := ∀ id cell, table.cell? id = some cell → cell.IsLegible

variable {table larger : TypeTable} {type : TypeDef} {id : TypeId}

theorem Legible.get? (legible : table.Legible) (found : table.get? id = some type) : type.IsLegible := by
  obtain ⟨cell, atCell, rfl⟩ := Option.map_eq_some_iff.mp found
  exact (legible id cell atCell).type

theorem legible_empty : Legible {} := by
  intro id cell found
  unfold cell? at found
  split at found <;> simp at found

section Growing

theorem Legible.of_cell? (legible : table.Legible) (same : ∀ id, larger.cell? id = table.cell? id) :
    larger.Legible :=
  fun id cell found => legible id cell ((same id).symm.trans found)

theorem Legible.add (legible : table.Legible) (new : type.IsLegible) : (table.add type).2.Legible := by
  intro id cell found
  rw [cell?_add] at found
  split at found
  · obtain rfl := Option.some.inj found
    exact ⟨new, by simp⟩
  · exact legible id cell found

theorem Legible.modifyCell (legible : table.Legible) {change : Cell → Cell}
    (keeps : ∀ cell, table.cell? id = some cell → cell.IsLegible → (change cell).IsLegible) :
    (table.modifyCell id change).Legible := by
  intro other cell found
  rw [cell?_modifyCell] at found
  split at found
  · obtain ⟨before, atBefore, rfl⟩ := Option.map_eq_some_iff.mp found
    exact keeps before atBefore (legible id before atBefore)
  · exact legible other cell found

theorem Legible.withTypevars (legible : table.Legible) {names : List String} (plain : ∀ name ∈ names, IsPlain name) :
    (table.withTypevars names).Legible := by
  induction names generalizing table with
  | nil => exact legible
  | cons name names ih =>
      obtain ⟨first, others⟩ := List.forall_mem_cons.mp plain
      exact ih (legible.add (TypeDef.isLegible_of_named rfl first (by simp))) others

end Growing

section Spelling

/-- A text in which no parenthesis opens. -/
def Unopened (text : String) : Prop := '(' ∉ text.toList

instance (text : String) : Decidable (Unopened text) := inferInstanceAs (Decidable ('(' ∉ text.toList))

theorem unopened_of_plain {text : String} (plain : IsPlain text) : Unopened text := plain '(' (by decide)

theorem Unopened.append {first second : String} (one : Unopened first) (two : Unopened second) :
    Unopened (first ++ second) := by
  simpa [Unopened] using And.intro one two

theorem unopened_commaList {items : List String} (each : ∀ item ∈ items, Unopened item) :
    Unopened (commaList items) := by
  unfold commaList
  induction items with
  | nil => decide
  | cons item items ih =>
      obtain ⟨first, others⟩ := List.forall_mem_cons.mp each
      cases items with
      | nil => simpa using first
      | cons other items =>
          rw [String.intercalate_cons_cons]
          exact (first.append (by decide)).append (ih others)

theorem unopened_length (length : Int) : Unopened (toString length) := by
  cases length with
  | ofNat length => exact not_mem_repr (by decide)
  | negSucc length => exact Unopened.append (by decide) (not_mem_repr (by decide))

theorem unopened_bracketed {before inside : String} (one : Unopened before) (two : Unopened inside) :
    Unopened (before ++ "[" ++ inside ++ "]") :=
  ((one.append (by decide)).append two).append (by decide)

theorem mapM_unopened {Item : Type} {items : List Item} {read : Item → Except Fault String} {texts : List String}
    (each : ∀ item text, read item = .ok text → Unopened text) (run : items.mapM read = .ok texts) :
    ∀ text ∈ texts, Unopened text := by
  induction items generalizing texts with
  | nil =>
      cases run
      simp
  | cons item items ih =>
      rw [List.mapM_cons] at run
      obtain ⟨text, first, run⟩ := eq_ok_of_bind run
      obtain ⟨others, behind, run⟩ := eq_ok_of_bind run
      obtain rfl := Except.ok.inj run
      exact List.forall_mem_cons.mpr ⟨each item text first, ih behind⟩

theorem Legible.ownName (legible : table.Legible) {name : String} (run : table.ownName id = .ok name) :
    Unopened name := by
  obtain ⟨type, found, run⟩ := eq_ok_of_bind run
  have given (isGiven : type.givenName? = some name) : Unopened name :=
    unopened_of_plain ((legible.get? (get_eq_ok.mp found)).name name isGiven)
  cases type with
  | applied head args =>
      obtain ⟨generic, isHead, run⟩ := eq_ok_of_bind run
      cases generic with
      | object declared =>
          obtain rfl := Except.ok.inj run
          exact unopened_of_plain ((legible.get? (get_eq_ok.mp isHead)).name _ rfl)
      | _ => cases run
  | wrap wrapper inner =>
      obtain rfl := Except.ok.inj run
      cases wrapper <;> decide
  | void | unknown | array | tuple =>
      obtain rfl := Except.ok.inj run
      decide
  | scalar | typevar | object | distinct =>
      obtain rfl := Except.ok.inj run
      exact given rfl

/-- No parenthesis opens in the spelling of a type. -/
theorem Legible.spellWithin (legible : table.Legible) {depth : Nat} {text : String}
    (run : table.spellWithin depth id = .ok text) : Unopened text := by
  induction depth generalizing id text with
  | zero => cases run
  | succ depth ih =>
      unfold TypeTable.spellWithin at run
      obtain ⟨type, found, run⟩ := eq_ok_of_bind run
      cases type with
      | array length element =>
          obtain ⟨inner, spelled, run⟩ := eq_ok_of_bind run
          obtain rfl := Except.ok.inj run
          have before : Unopened ("array[" ++ toString length ++ ", ") :=
            (Unopened.append (by decide) (unopened_length length)).append (by decide)
          exact (before.append (ih spelled)).append (by decide)
      | tuple elements =>
          obtain ⟨inner, spelled, run⟩ := eq_ok_of_bind run
          obtain rfl := Except.ok.inj run
          have inside := unopened_commaList (mapM_unopened (fun _ _ => ih) spelled)
          exact (Unopened.append (by decide) inside).append (by decide)
      | wrap wrapper operand =>
          cases wrapper <;> obtain ⟨inner, spelled, run⟩ := eq_ok_of_bind run <;> obtain rfl := Except.ok.inj run
          case seq => exact (Unopened.append (by decide) (ih spelled)).append (by decide)
          all_goals exact Unopened.append (by decide) (ih spelled)
      | applied head args =>
          obtain ⟨name, named, run⟩ := eq_ok_of_bind run
          obtain ⟨inner, spelled, run⟩ := eq_ok_of_bind run
          obtain rfl := Except.ok.inj run
          exact unopened_bracketed (legible.ownName named)
            (unopened_commaList (mapM_unopened (fun _ _ => ih) spelled))
      | object declared =>
          have name : Unopened declared.name :=
            unopened_of_plain ((legible.get? (get_eq_ok.mp found)).name _ rfl)
          dsimp only at run
          split at run
          · obtain rfl := Except.ok.inj run
            exact name
          · obtain ⟨inner, spelled, run⟩ := eq_ok_of_bind run
            obtain rfl := Except.ok.inj run
            exact unopened_bracketed name (unopened_commaList (mapM_unopened (fun _ _ => legible.ownName) spelled))
      | _ => exact legible.ownName run

end Spelling
end TypeTable

namespace TableM

open TypeTable

variable {table larger : TypeTable} {type : TypeDef} {id : TypeId}

theorem add_legible (new : type.IsLegible) : (add type).Preserves (Lasts Legible) :=
  fun _ legible => legible.add new

theorem intern_legible (structural : type.isStructural = true) : (intern type).Preserves (Lasts Legible) := by
  refine leads_get.bind fun table => ?_
  split
  · exact leads_pure _
  · exact add_legible (TypeDef.isLegible_of_structural structural)

theorem builtIn_legible {known : TypeTable → Option TypeId} {remember : TypeId → TypeTable → TypeTable}
    (isBuiltIn : IsBuiltIn known remember type) (new : type.IsLegible) :
    (builtIn known remember type).Preserves (Lasts Legible) := by
  refine leads_get.bind fun table => ?_
  split
  · exact leads_pure _
  · refine (add_legible new).bind fun id => (leads_modify fun table legible => ?_).bind fun _ => leads_pure _
    exact legible.of_cell? fun other => by simp only [cell?, isBuiltIn.sameCells]

theorem declareObject_legible {name : String} {params : List String} (plain : IsPlain name)
    (paramsPlain : ∀ param ∈ params, IsPlain param) (span : Span) :
    (declareObject name params span).Preserves (Lasts Legible) := by
  intro table
  rw [declareObject_run]
  refine fun legible => (legible.add ⟨fun other isName => ?_, ?_⟩).withTypevars paramsPlain
  · exact Option.some.inj isName ▸ plain
  · rintro declared isObject
    obtain rfl := TypeDef.object.inj isObject
    exact Body.isLegible_empty

theorem defineObject_legible {contents : Body} (new : contents.IsLegible) (id : TypeId) :
    (defineObject id contents).Preserves (Lasts Legible) := by
  refine defineObject_preserves fun table object isObject legible other cell found => ?_
  rw [cell?_withBody] at found
  obtain ⟨before, atBefore, rfl⟩ := Option.map_eq_some_iff.mp found
  have isLegible : before.IsLegible := by
    split at atBefore
    · obtain ⟨own, atOwn, rfl⟩ := Option.map_eq_some_iff.mp atBefore
      refine ⟨⟨fun name isName => (legible.get? isObject).name name isName, ?_⟩, (legible id own atOwn).body⟩
      rintro declared isDeclared
      obtain rfl := TypeDef.object.inj isDeclared
      exact new
    · exact legible other before atBefore
  split
  · exact ⟨isLegible.type, by simp⟩
  · exact isLegible

theorem nesting_legible (id : TypeId) : (nesting id).Preserves (Lasts Legible) := by
  refine leads_get.bind fun _ => nestingWithin_preserves (fun table id depth legible => ?_) _ id
  exact legible.modifyCell fun cell _ isLegible => ⟨isLegible.type, isLegible.body⟩

section Bodies

/-- Substitution leaves the names of fields alone. -/
theorem substituteBody_names {mapping : Substitution} {body result : Body}
    (run : substituteBody mapping body table = .ok result larger) :
    result.fields.map Field.name = body.fields.map Field.name := by
  obtain ⟨fields, middle, substituted, run⟩ := bind_eq_ok.mp run
  obtain ⟨base, last, _, run⟩ := bind_eq_ok.mp run
  obtain ⟨rfl, rfl⟩ := EStateM.Result.ok.inj run
  have told : List.Forall₂ (fun (field result : Field) => field.name = result.name) body.fields fields :=
    mapM_tells (fun _ (field result : Field) => field.name = result.name)
      (fun field => (substitute_appends mapping field.type).bind fun _ => leads_pure _)
      (fun field state later result run => by
        obtain ⟨type, _, _, run⟩ := bind_eq_ok.mp run
        obtain ⟨rfl, -⟩ := EStateM.Result.ok.inj run
        rfl)
      (fun _ _ _ _ told _ => told) substituted
  symm
  exact List.forall₂_eq_eq_eq ▸ List.forall₂_map_left_iff.mpr (List.forall₂_map_right_iff.mpr told)

theorem substituteBody_legible (mapping : Substitution) (body : Body) :
    (substituteBody mapping body).Preserves (Lasts Legible) :=
  substituteBody_preserves (fun _ => intern_legible) mapping body

theorem body_legible (id : TypeId) : (body id).Preserves (Lasts Legible) := by
  refine preserves_iff.mpr fun table legible => ?_
  refine finish_bind (fun fault middle run => ((fetch_preserves id).of_error run : Lasts Legible _ _) legible)
    fun type middle run => ?_
  obtain ⟨isType, unchanged⟩ := fetch_eq_ok.mp run
  subst middle
  cases type with
  | applied head args =>
      refine finish_bind (fun fault middle run => by cases run) fun same middle run => ?_
      obtain ⟨rfl, rfl⟩ := EStateM.Result.ok.inj run
      split
      · exact legible
      · refine finish_bind (fun fault middle run => ((fetch_preserves head).of_error run : Lasts Legible _ _) legible)
          fun generic middle run => ?_
        obtain ⟨isHead, unchanged⟩ := fetch_eq_ok.mp run
        subst middle
        cases generic with
        | object declared =>
            refine finish_bind (fun fault middle run => ?_) fun result middle run => ?_
            · exact (substituteBody_legible _ _).of_error run legible
            · have isLegible : result.IsLegible :=
                ((legible.get? isHead).body declared rfl).of_names (substituteBody_names run)
              have onwards := (substituteBody_legible _ _).of_ok run legible
              refine onwards.modifyCell fun cell _ before => ⟨before.type, fun body isBody => ?_⟩
              exact Option.some.inj isBody ▸ isLegible
        | _ => exact legible
  | _ => exact legible

/-- A legible table has legible bodies only. -/
theorem isLegible_of_body {result : Body} (legible : table.Legible) (run : body id table = .ok result larger) :
    result.IsLegible := by
  obtain ⟨type, middle, fetched, run⟩ := bind_eq_ok.mp run
  obtain ⟨isType, unchanged⟩ := fetch_eq_ok.mp fetched
  subst middle
  cases type with
  | object declared =>
      obtain ⟨rfl, -⟩ := EStateM.Result.ok.inj run
      exact (legible.get? isType).body declared rfl
  | applied head args =>
      dsimp only at run
      rw [get_bind_run] at run
      cases isKnown : (table.cell? id).bind Cell.body with
      | some known =>
          rw [isKnown] at run
          obtain ⟨rfl, -⟩ := EStateM.Result.ok.inj run
          obtain ⟨cell, atCell, isBody⟩ := Option.bind_eq_some_iff.mp isKnown
          exact (legible id cell atCell).body _ isBody
      | none =>
          rw [isKnown] at run
          obtain ⟨generic, middle, fetched, run⟩ := bind_eq_ok.mp run
          obtain ⟨isHead, unchanged⟩ := fetch_eq_ok.mp fetched
          subst middle
          cases generic with
          | object declared =>
              obtain ⟨found, _, substituted, run⟩ := bind_eq_ok.mp run
              obtain ⟨rfl, -⟩ := EStateM.Result.ok.inj run
              exact ((legible.get? isHead).body declared rfl).of_names (substituteBody_names substituted)
          | _ =>
              obtain ⟨rfl, -⟩ := EStateM.Result.ok.inj run
              exact Body.isLegible_empty
  | _ =>
      obtain ⟨rfl, -⟩ := EStateM.Result.ok.inj run
      exact Body.isLegible_empty

end Bodies
end TableM
end LifecycleHooks

import LifecycleHooks.Proofs.Program.Accounts

/-!
# The ledger of a program

A ledger tells what the declarations of a program come to: the names that are given, what the
types are called, what the declared ones are, and what is reported.  It is written in the three
rounds in which the types are declared, one account after the other.  When the names of the
declarations differ from each other and from those of the built-in types, the declarations of
the program are as its ledger says.
-/

namespace LifecycleHooks

open Attempt

namespace Surface

/-- The objects among the declared types. -/
def objects (decls : List TypeDecl) : List ObjectDecl :=
  decls.filterMap fun
    | .object decl => some decl
    | .distinct _ => none

/-- The distinct types among the declared types. -/
def distincts (decls : List TypeDecl) : List DistinctDecl :=
  decls.filterMap fun
    | .object _ => none
    | .distinct decl => some decl

/-- The name of a declared type. -/
def TypeDecl.name : TypeDecl → String
  | .object decl => decl.name
  | .distinct decl => decl.name

/-- The names of the objects and those of the distinct types are the names that are declared. -/
theorem names_perm (decls : List TypeDecl) :
    ((objects decls).map ObjectDecl.name ++ (distincts decls).map DistinctDecl.name).Perm (decls.map TypeDecl.name) := by
  induction decls with
  | nil => exact .nil
  | cons decl decls ih =>
      cases decl with
      | object decl => exact ih.cons decl.name
      | distinct decl => exact List.perm_middle.trans (ih.cons decl.name)

/-- The name of an object on a roster. -/
def ObjectDecl.entry (file : Option String) (decl : ObjectDecl) : String × Symbol := (decl.name, decl.symbol file)

/-- The name of a distinct type on a roster. -/
def DistinctDecl.entry (file : Option String) (decl : DistinctDecl) : String × Symbol := (decl.name, decl.symbol file)

end Surface

/-- An object goes back to its declaration, and so do its type parameters. -/
theorem Surface.ObjectDecl.owns {file : Option String} {own : Symbol} (decl : ObjectDecl)
    (member : .named own ∈ Meaning.named (decl.symbol file) :: (decl.symbol file).params.map .named) :
    ∀ owner ∈ own.owner?, owner = decl.name ∧ (own = decl.symbol file ∨ own ∈ (decl.symbol file).params) := by
  intro owner isOwner
  rcases List.mem_cons.mp member with same | inParams
  · obtain rfl := Meaning.named.inj same
    exact ⟨(Option.some.inj isOwner).symm, .inl rfl⟩
  · obtain ⟨param, isParam, same⟩ := List.mem_map.mp inParams
    obtain rfl := Meaning.named.inj same
    refine ⟨?_, .inr isParam⟩
    obtain ⟨entry, -, rfl⟩ := List.mem_map.mp isParam
    exact (Option.some.inj isOwner).symm

theorem Surface.DistinctDecl.owns {file : Option String} {own : Symbol} (decl : DistinctDecl)
    (member : .named own ∈ [Meaning.named (decl.symbol file)]) :
    ∀ owner ∈ own.owner?, owner = decl.name ∧ (own = decl.symbol file ∨ own ∈ (decl.symbol file).params) := by
  intro owner isOwner
  obtain rfl := Meaning.named.inj (List.mem_singleton.mp member)
  exact ⟨(Option.some.inj isOwner).symm, .inl rfl⟩

/-- What declarations come to. -/
structure Ledger where
  roster : Roster
  made : List Meaning
  details : List (Symbol × Detail) := []
  said : List Diagnostic := []

namespace Ledger

open Surface

/-- The built-in types are named. -/
def builtIns : Ledger where
  roster := [("Int", .scalar "Int"), ("Bool", .scalar "Bool"), ("Void", .void)]
  made := [.named (.scalar "Int"), .named (.scalar "Bool"), .named .void]

/-- A name is given to a type. -/
def enroll (ledger : Ledger) (name : String) (symbol : Symbol) : Ledger :=
  { ledger with roster := ledger.roster ++ [(name, symbol)] }

/-- What is made and reported on the way to what a declared type is. -/
def settle (ledger : Ledger) (symbol : Symbol) (account : Account Detail) : Ledger :=
  { ledger with
    made := ledger.made ++ account.made
    details := ledger.details ++ [(symbol, account.result)]
    said := ledger.said ++ account.said }

/-- What is made and reported on the way to what several declared types are. -/
def settleAll (ledger : Ledger) (accounts : List (Symbol × Account Detail)) : Ledger :=
  { ledger with
    made := ledger.made ++ accounts.flatMap fun entry => entry.2.made
    details := ledger.details ++ accounts.map fun entry => (entry.1, entry.2.result)
    said := ledger.said ++ accounts.flatMap fun entry => entry.2.said }

/-- An object is declared, with its type parameters. -/
def declareObject (file : Option String) (ledger : Ledger) (decl : ObjectDecl) : Ledger :=
  let symbol := decl.symbol file
  let made : List Meaning := .named symbol :: symbol.params.map .named
  { ledger with made := ledger.made ++ made }.enroll decl.name symbol

/-- A distinct type is declared. -/
def declareDistinct (file : Option String) (ledger : Ledger) (decl : DistinctDecl) : Ledger :=
  (ledger.settle (decl.symbol file) (.ofDistinct file ledger.roster decl)).enroll decl.name (decl.symbol file)

/-- An object gets its body. -/
def defineObject (file : Option String) (ledger : Ledger) (decl : ObjectDecl) : Ledger :=
  ledger.settle (decl.symbol file) (.ofObject file ledger.roster decl)

/-- The ledger of a program. -/
def ofProgram (file : Option String) (decls : List TypeDecl) : Ledger :=
  (objects decls).foldl (defineObject file) <| (distincts decls).foldl (declareDistinct file) <|
    (objects decls).foldl (declareObject file) builtIns

section Folding

variable (file : Option String) (ledger : Ledger)

theorem foldl_declareObject (decls : List ObjectDecl) :
    decls.foldl (declareObject file) ledger =
      { ledger with
        roster := ledger.roster ++ decls.map (ObjectDecl.entry file)
        made := ledger.made ++ decls.flatMap fun decl =>
          .named (decl.symbol file) :: (decl.symbol file).params.map .named } := by
  induction decls generalizing ledger with
  | nil => simp
  | cons decl decls ih =>
      rw [List.foldl_cons, ih]
      simp [declareObject, enroll, ObjectDecl.entry]

/-- What a distinct type comes to among others, of which it sees those before it. -/
def distinctAccount (roster : Roster) (decls : List DistinctDecl) (decl : DistinctDecl) : Account Detail :=
  .ofDistinct file (roster ++ (decls.takeWhile (·.name ≠ decl.name)).map (DistinctDecl.entry file)) decl

theorem distinctAccount_cons {roster : Roster} {first decl : DistinctDecl} (decls : List DistinctDecl)
    (differ : first.name ≠ decl.name) :
    distinctAccount file roster (first :: decls) decl =
      distinctAccount file (roster ++ [first.entry file]) decls decl := by
  simp [distinctAccount, differ]

theorem foldl_declareDistinct (decls : List DistinctDecl) (names : (decls.map DistinctDecl.name).Nodup) :
    decls.foldl (declareDistinct file) ledger =
      { ledger.settleAll (decls.map fun decl => (decl.symbol file, distinctAccount file ledger.roster decls decl)) with
        roster := ledger.roster ++ decls.map (DistinctDecl.entry file) } := by
  induction decls generalizing ledger with
  | nil => simp [settleAll]
  | cons first decls ih =>
      obtain ⟨new, others⟩ := List.nodup_cons.mp names
      have here : distinctAccount file ledger.roster (first :: decls) first = .ofDistinct file ledger.roster first := by
        simp [distinctAccount]
      have behind : (decls.map fun decl => (decl.symbol file, distinctAccount file ledger.roster (first :: decls) decl)) =
          decls.map fun decl =>
            (decl.symbol file, distinctAccount file (ledger.roster ++ [first.entry file]) decls decl) :=
        List.map_congr_left fun decl member => by
          have differ : first.name ≠ decl.name := fun same => new (same ▸ List.mem_map_of_mem member)
          rw [distinctAccount_cons file decls differ]
      rw [List.foldl_cons, ih _ others, List.map_cons, behind, here]
      simp [declareDistinct, enroll, settle, settleAll, DistinctDecl.entry]

theorem foldl_defineObject (decls : List ObjectDecl) :
    decls.foldl (defineObject file) ledger =
      ledger.settleAll (decls.map fun decl => (decl.symbol file, .ofObject file ledger.roster decl)) := by
  induction decls generalizing ledger with
  | nil => simp [settleAll]
  | cons decl decls ih =>
      rw [List.foldl_cons, ih]
      simp [defineObject, settle, settleAll]

end Folding

end Ledger

namespace Declarations

open TypeTable

/-- The declarations are as the ledger says. -/
structure Settled (declarations : Declarations) (label : TypeId → Meaning) (ledger : Ledger) : Prop extends
    Stands declarations label ledger.roster where
  meanings : declarations.table.meanings label = {meaning | meaning ∈ ledger.made}
  tells : ∀ entry ∈ ledger.details, declarations.table.Tells label entry.1 entry.2
  said : declarations.diagnostics = ledger.said

variable {declarations later : Declarations} {label further : TypeId → Meaning} {ledger : Ledger}

/-- What an account says is written down. -/
theorem Settled.reaches (settled : declarations.Settled label ledger) {made : List Meaning} {said : List Diagnostic}
    (stands : later.Stands further ledger.roster) (reaches : declarations.Reaches label later further made said) :
    later.Settled further { ledger with made := ledger.made ++ made, said := ledger.said ++ said } where
  toStands := stands
  meanings := by
    rw [reaches.names.meanings, settled.meanings]
    ext meaning
    simp
  tells entry member := (settled.tells entry member).names settled.labelled reaches.names
  said := by rw [reaches.said, settled.said]

/-- What a declaration tells is written down. -/
theorem Settled.detail (settled : declarations.Settled label ledger) {symbol : Symbol} {detail : Detail}
    (tells : declarations.table.Tells label symbol detail) :
    declarations.Settled label { ledger with details := ledger.details ++ [(symbol, detail)] } where
  toStands := settled.toStands
  meanings := settled.meanings
  tells := List.forall_mem_append.mpr ⟨settled.tells, by simpa using tells⟩
  said := settled.said

end Declarations

namespace DeclareM

open Declarations TypeTable

variable {declarations : Declarations} {label : TypeId → Meaning} {ledger : Ledger} {file : Option String}

/-- A name that is not on the roster is free. -/
theorem checkFresh_run {name : String} (stands : declarations.Stands label ledger.roster)
    (fresh : name ∉ ledger.roster.map Prod.fst) (place : Position) :
    checkFresh file name place declarations = .ok true declarations := by
  have absent : ledger.roster.lookup name = none := by
    rw [List.lookup_eq_none_iff]
    intro entry member
    simpa using fun same : name = entry.1 => fresh (same ▸ List.mem_map_of_mem member)
  have known := stands.enrolls.lookup name
  rw [absent] at known
  unfold checkFresh
  rw [get_bind_run]
  cases found : declarations.names.lookup name with
  | none => rfl
  | some id =>
      rw [found] at known
      cases known

/-- A declared type is named. -/
theorem declare_settles {action : TableM TypeId} (name : String) {symbol : Symbol} {made : List Meaning}
    (settled : declarations.Settled label ledger)
    (gives : Gives action declarations.table label (.named symbol) made)
    (owned : ∀ own, .named own ∈ made → ∀ owner ∈ own.owner?, owner = name ∧ (own = symbol ∨ own ∈ symbol.params)) :
    ∃ id middle later further, action declarations.table = .ok id later.table ∧
      onTable action declarations = .ok id middle ∧ DeclareM.name name id middle = .ok () later ∧
      later.Settled further ({ ledger with made := ledger.made ++ made }.enroll name symbol) ∧
      declarations.table.Retains label later.table further ∧ later.table.Means further id (.named symbol) := by
  obtain ⟨id, larger, further, run, labelled, names, means⟩ := gives
  refine ⟨id, { declarations with table := larger },
    { declarations with table := larger, names := declarations.names ++ [(name, id)] }, further, run, ?_, rfl,
    ⟨⟨labelled, ?_, ?_⟩, ?_, ?_, settled.said⟩, names.retains, means⟩
  · unfold onTable onPart
    rw [run]
  · exact List.rel_append (settled.enrolls.retains names.retains) (.cons ⟨rfl, means⟩ .nil)
  · intro own member owner isOwner
    rw [names.meanings] at member
    rcases member with before | made
    · obtain ⟨head, onRoster, same⟩ := settled.owners own before owner isOwner
      exact ⟨head, List.mem_append_left _ onRoster, same⟩
    · obtain ⟨rfl, same⟩ := owned own made owner isOwner
      exact ⟨symbol, List.mem_append_right _ (List.mem_singleton_self _), same⟩
  · rw [names.meanings, settled.meanings]
    ext meaning
    simp [Ledger.enroll]
  · exact fun entry member => (settled.tells entry member).names settled.labelled names

/-- Before a name is given, no type goes back to it. -/
theorem not_owner_of_fresh {name : String} (stands : declarations.Stands label ledger.roster)
    (fresh : name ∉ ledger.roster.map Prod.fst) :
    ∀ meaning ∈ declarations.table.meanings label, meaning.owner? ≠ some name := by
  intro meaning member owned
  cases meaning with
  | named own =>
      obtain ⟨head, onRoster, -⟩ := stands.owners own member name owned
      exact fresh (List.mem_map.mpr ⟨_, onRoster, rfl⟩)
  | _ => cases owned

/-- The objects are declared. -/
theorem declareObjects_settles (file : Option String) (decls : List Surface.TypeDecl) (settled : declarations.Settled label ledger)
    (fresh : (ledger.roster.map Prod.fst ++ (Surface.objects decls).map Surface.ObjectDecl.name).Nodup) :
    ∃ entries later further, declareObjects file decls declarations = .ok entries later ∧
      later.Settled further ((Surface.objects decls).foldl (Ledger.declareObject file) ledger) ∧
      List.Forall₂ (fun entry decl => entry.1 = decl ∧ later.table.Means further entry.2 (.named (decl.symbol file)))
        entries (Surface.objects decls) ∧
      declarations.table.Retains label later.table further := by
  induction decls generalizing declarations label ledger with
  | nil => exact ⟨[], declarations, label, rfl, settled, .nil, .refl _ _⟩
  | cons decl decls ih =>
      cases decl with
      | distinct decl => exact ih settled fresh
      | object decl =>
          have new : decl.name ∉ ledger.roster.map Prod.fst := fun before =>
            (List.nodup_append.mp fresh).2.2 _ before _ (List.mem_cons_self ..) rfl
          have gives : Gives (TableM.declareObject decl.name decl.typeParams (decl.place.toSpan file))
              declarations.table label (.named (decl.symbol file)) _ :=
            TableM.declareObject_gives settled.labelled (not_owner_of_fresh settled.toStands new)
          obtain ⟨id, made, middle, called, -, declares, names, settled', retains, means⟩ :=
            declare_settles decl.name settled gives fun _ => decl.owns
          obtain ⟨entries, last, final, run, settled'', others, retains'⟩ := ih settled' (by
            simpa [Ledger.enroll, Surface.objects] using fresh)
          refine ⟨(decl, id) :: entries, last, final, ?_, settled'', .cons ⟨rfl, retains' _ _ means⟩ others,
            retains.trans retains'⟩
          unfold declareObjects
          rw [bind_run_of_ok (checkFresh_run settled.toStands new decl.place), if_pos rfl, bind_run_of_ok declares,
            bind_run_of_ok names, bind_run_of_ok run]
          rfl

/-- The distinct types are declared. -/
theorem declareDistincts_settles (file : Option String) (decls : List Surface.TypeDecl) (settled : declarations.Settled label ledger)
    (fresh : (ledger.roster.map Prod.fst ++ (Surface.distincts decls).map Surface.DistinctDecl.name).Nodup) :
    ∃ later further, declareDistincts file decls declarations = .ok () later ∧
      later.Settled further ((Surface.distincts decls).foldl (Ledger.declareDistinct file) ledger) ∧
      declarations.table.Retains label later.table further := by
  induction decls generalizing declarations label ledger with
  | nil => exact ⟨declarations, label, rfl, settled, .refl _ _⟩
  | cons decl decls ih =>
      cases decl with
      | object decl => exact ih settled fresh
      | distinct decl =>
          have new : decl.name ∉ ledger.roster.map Prod.fst := fun before =>
            (List.nodup_append.mp fresh).2.2 _ before _ (List.mem_cons_self ..) rfl
          obtain ⟨underlying, resolved, relabel, resolves, stands, reaches, means⟩ :=
            resolveType_follows file decl.underlying declarations label settled.toStands .nil
          have resettled := settled.reaches stands reaches
          have gives : Gives (TableM.declareDistinct decl.name underlying (decl.place.toSpan file))
              resolved.table relabel (.named (decl.symbol file)) [.named (decl.symbol file)] :=
            TableM.declareDistinct_gives stands.labelled means.1 fun before =>
              not_owner_of_fresh stands new _ before rfl
          obtain ⟨id, made, middle, called, run, declares, names, settled', retains, means'⟩ :=
            declare_settles decl.name resettled gives fun _ => decl.owns
          have told : middle.table.Tells called (decl.symbol file) (Account.ofDistinct file ledger.roster decl).result :=
            ⟨id, _, TableM.get?_of_declareDistinct run, means'.2,
              congrArg (fun meaning => some (Detail.underlying meaning)) (retains _ _ means).2⟩
          have declared : middle.Settled called (ledger.declareDistinct file decl) := by
            have settled := settled'.detail told
            simpa [Ledger.declareDistinct, Ledger.settle, Ledger.enroll, Account.ofDistinct, Account.bind_eq,
              Account.make, Account.pure_eq] using settled
          obtain ⟨last, final, rest, settled'', retains'⟩ := ih declared (by
            simpa [Ledger.enroll, Ledger.declareDistinct, Ledger.settle, Surface.distincts] using fresh)
          refine ⟨last, final, ?_, settled'', (reaches.names.retains.trans retains).trans retains'⟩
          unfold declareDistincts
          rw [bind_run_of_ok (checkFresh_run settled.toStands new decl.place)]
          dsimp only
          rw [if_pos rfl, bind_run_of_ok resolves, bind_run_of_ok declares, bind_run_of_ok names, rest]

/-- The types of a body, when its base and its fields are called so. -/
theorem detail_of_means {table : TypeTable} (object : ObjectType) {base : Option TypeId} {fields : List Field}
    {isBase : Option Meaning} {areFields : List (String × Meaning)} (hasBase : Option.Rel (table.Means label) base isBase)
    (hasFields : List.Forall₂ (fun (field : Field) called =>
      field.name = called.1 ∧ table.Means label field.type called.2) fields areFields) :
    (∀ slot ∈ (⟨fields, base⟩ : Body).slots, table.Has slot.type) ∧
      (TypeDef.object { object with body := ⟨fields, base⟩ }).detail label = some (.body areFields isBase) := by
  have baseTold : (∀ id ∈ base, table.Has id) ∧ base.map label = isBase := by
    cases hasBase with
    | none => exact ⟨by simp, rfl⟩
    | some means => exact ⟨by simpa using means.1, congrArg some means.2⟩
  have fieldsTold : (∀ field ∈ fields, table.Has field.type) ∧
      fields.map (fun field => (field.name, label field.type)) = areFields := by
    induction hasFields with
    | nil => exact ⟨by simp, rfl⟩
    | @cons field called _ _ here _ ih =>
        obtain ⟨named, means⟩ := here
        exact ⟨List.forall_mem_cons.mpr ⟨means.1, ih.1⟩, congrArg₂ _ (Prod.ext named means.2) ih.2⟩
  constructor
  · intro slot member
    rcases List.mem_append.mp member with inBase | inFields
    · obtain ⟨id, isBase, rfl⟩ := List.mem_map.mp inBase
      exact baseTold.1 id (Option.mem_toList.mp isBase)
    · obtain ⟨field, isField, rfl⟩ := List.mem_map.mp inFields
      exact fieldsTold.1 field isField
  · rw [TypeDef.detail, baseTold.2, fieldsTold.2]

/-- An object gets its body, and all else is left as it was. -/
theorem withBody_settles {id : TypeId} {object : ObjectType} {contents : Body} {symbol : Symbol} {detail : Detail}
    (settled : declarations.Settled label ledger) (found : declarations.table.get? id = some (.object object))
    (called : label id = .named symbol) (has : ∀ slot ∈ contents.slots, declarations.table.Has slot.type)
    (told : (TypeDef.object { object with body := contents }).detail label = some detail)
    (first : ∀ entry ∈ ledger.details, entry.1 ≠ symbol) :
    Settled { declarations with table := declarations.table.withBody id object contents } label
        { ledger with details := ledger.details ++ [(symbol, detail)] } ∧
      declarations.table.Retains label (declarations.table.withBody id object contents) label := by
  have redefines := TableM.withBody_redefines settled.labelled.instances found contents
  obtain ⟨labelled, meanings⟩ := TableM.withBody_labelled settled.labelled found has
  have retains : declarations.table.Retains label (declarations.table.withBody id object contents) label := by
    rintro other meaning ⟨hasOther, called⟩
    exact ⟨redefines.has_eq ▸ hasOther, called⟩
  refine ⟨⟨⟨labelled, settled.enrolls.retains retains, ?_⟩, meanings.trans settled.meanings, ?_, settled.said⟩, retains⟩
  · rw [meanings]
    exact settled.owners
  · refine List.forall_mem_append.mpr ⟨fun entry member => ?_, ?_⟩
    · obtain ⟨other, type, before, calledOther, toldOther⟩ := settled.tells entry member
      have differ : other ≠ id := by
        rintro rfl
        exact first entry member (Meaning.named.inj (calledOther.symm.trans called))
      exact ⟨other, type, by rw [redefines.types, if_neg differ, before], calledOther, toldOther⟩
    · rw [List.forall_mem_singleton]
      exact ⟨id, _, by rw [redefines.types, if_pos rfl], called, told⟩

/-- A declared object gets the body that its account tells. -/
theorem defineObject_settles (file : Option String) {id : TypeId} (decl : Surface.ObjectDecl) (settled : declarations.Settled label ledger)
    (means : declarations.table.Means label id (.named (decl.symbol file)))
    (first : ∀ entry ∈ ledger.details, entry.1 ≠ decl.symbol file) :
    ∃ later further, defineObject file decl id declarations = .ok () later ∧
      later.Settled further (ledger.defineObject file decl) ∧ declarations.table.Retains label later.table further := by
  obtain ⟨type, found⟩ := means.1.exists
  have described := settled.labelled.describes id type found
  rw [means.2] at described
  obtain ⟨declared, rfl⟩ : ∃ declared, type = .object declared := by
    have outline := described.outline
    cases type with
    | object declared => exact ⟨declared, rfl⟩
    | _ => cases outline
  have enrolls : declarations.table.Enrolls label (TypeVars.of decl.typeParams declared.params)
      (decl.symbol file).typeVars :=
    Enrolls.typeVars (settled.labelled.paramsKnown id declared found) described.ingredients
  obtain ⟨base, middle, relabel, runsBase, stands, reaches, hasBase⟩ :=
    resolveBase_follows file settled.toStands enrolls decl.name decl.base
  obtain ⟨fields, last, final, runsFields, stands', reaches', hasFields⟩ :=
    resolveFields_follows file decl.name decl.fields [] stands (enrolls.retains reaches.names.retains)
  have both := reaches.trans reaches'
  have isObject := both.names.extends_.get? found
  obtain ⟨has, told⟩ := detail_of_means declared (reaches'.names.retains.option hasBase) hasFields
  obtain ⟨bodied, retains⟩ := withBody_settles (settled.reaches stands' both) isObject
    (both.names.retains _ _ means).2 has told first
  refine ⟨{ last with table := last.table.withBody id declared ⟨fields, base⟩ }, final, ?_, ?_,
    both.names.retains.trans retains⟩
  · unfold defineObject
    rw [bind_run_of_ok (ask_run (TypeTable.get_eq_ok.mpr found))]
    dsimp only [TypeDef.typeParams]
    rw [bind_run_of_ok runsBase, bind_run_of_ok runsFields]
    unfold onTable onPart
    rw [TableM.defineObject_run isObject]
  · simpa [Ledger.defineObject, Ledger.settle, Account.ofObject, Account.bind_eq, Account.pure_eq] using bodied

/-- All objects get their bodies. -/
theorem defineObjects_settles (file : Option String) {entries : List (Surface.ObjectDecl × TypeId)} {decls : List Surface.ObjectDecl}
    (settled : declarations.Settled label ledger)
    (entered : List.Forall₂ (fun entry decl => entry.1 = decl ∧
      declarations.table.Means label entry.2 (.named (decl.symbol file))) entries decls)
    (fresh : (ledger.details.map Prod.fst ++ decls.map (Surface.ObjectDecl.symbol file)).Nodup) :
    ∃ later further, (entries.forM fun (decl, id) => defineObject file decl id) declarations = .ok () later ∧
      later.Settled further (decls.foldl (Ledger.defineObject file) ledger) ∧
      declarations.table.Retains label later.table further := by
  induction decls generalizing entries declarations label ledger with
  | nil =>
      cases entered
      exact ⟨declarations, label, rfl, settled, .refl _ _⟩
  | cons decl decls ih =>
      obtain ⟨entry, entries, ⟨rfl, means⟩, others, rfl⟩ := List.forall₂_cons_right_iff.mp entered
      have first : ∀ detail ∈ ledger.details, detail.1 ≠ entry.1.symbol file := fun detail member =>
        (List.nodup_append.mp fresh).2.2 _ (List.mem_map_of_mem member) _ (List.mem_cons_self ..)
      obtain ⟨middle, relabel, run, settled', retains⟩ := defineObject_settles file entry.1 settled means first
      obtain ⟨last, final, runs, settled'', retains'⟩ := ih settled'
        (others.imp fun _ _ told => ⟨told.1, retains _ _ told.2⟩) (by
          simpa [Ledger.defineObject, Ledger.settle] using fresh)
      exact ⟨last, final, (bind_run_of_ok run).trans runs, settled'', retains.trans retains'⟩

/-- The declarations of a program that declares no types. -/
def builtInsOnly : Declarations where
  table := {
    cells := #[{ type := .scalar "Int" }, { type := .scalar "Bool" }, { type := .void }]
    int? := some 1
    bool? := some 2
    void? := some 3 }
  names := [("Int", 1), ("Bool", 2), ("Void", 3)]

/-- The built-in types are as the ledger says. -/
theorem declareBuiltIns_settles : declareBuiltIns {} = .ok () builtInsOnly ∧
    ∃ label, builtInsOnly.Settled label .builtIns := by
  have run : declareBuiltIns {} = .ok () builtInsOnly := rfl
  have sound := ((declareBuiltIns_yields sound_empty).of_ok run).1.1
  let label : TypeId → Meaning := fun id =>
    if id = 1 then .named (.scalar "Int") else if id = 2 then .named (.scalar "Bool") else .named .void
  have types : ∀ (id : Int) type, builtInsOnly.table.get? id = some type →
      id = 1 ∧ type = .scalar "Int" ∨ id = 2 ∧ type = .scalar "Bool" ∨ id = 3 ∧ type = .void := by
    intro id type found
    obtain ⟨low, high⟩ := range_of_get? found
    have three : (builtInsOnly.table.size : Int) = 3 := rfl
    obtain rfl | rfl | rfl : id = 1 ∨ id = 2 ∨ id = 3 := by omega
    · exact .inl ⟨rfl, (Option.some.inj found).symm⟩
    · exact .inr (.inl ⟨rfl, (Option.some.inj found).symm⟩)
    · exact .inr (.inr ⟨rfl, (Option.some.inj found).symm⟩)
  have has (id : Int) : builtInsOnly.table.Has id ↔ id = 1 ∨ id = 2 ∨ id = 3 := by
    constructor
    · intro has
      obtain ⟨type, found⟩ := has.exists
      rcases types id type found with ⟨rfl, -⟩ | ⟨rfl, -⟩ | ⟨rfl, -⟩ <;> simp
    · rintro (rfl | rfl | rfl) <;> rfl
  have meanings : builtInsOnly.table.meanings label = {meaning | meaning ∈ Ledger.builtIns.made} := by
    ext meaning
    constructor
    · rintro ⟨id, hasId, rfl⟩
      rcases (has id).mp hasId with rfl | rfl | rfl <;> simp [label, Ledger.builtIns]
    · intro member
      simp only [Ledger.builtIns, Set.mem_ofPred_eq, List.mem_cons, List.not_mem_nil, or_false] at member
      rcases member with rfl | rfl | rfl
      · exact ⟨1, rfl, rfl⟩
      · exact ⟨2, rfl, rfl⟩
      · exact ⟨3, rfl, rfl⟩
  have called : builtInsOnly.table.Called label := by
    refine ⟨fun id type found => ?_, fun id other hasId hasOther same => ?_, fun id => ?_⟩
    · rcases types id type found with ⟨rfl, rfl⟩ | ⟨rfl, rfl⟩ | ⟨rfl, rfl⟩ <;> exact ⟨rfl, rfl⟩
    · rcases (has id).mp hasId with rfl | rfl | rfl <;> rcases (has other).mp hasOther with rfl | rfl | rfl <;>
        first | rfl | simp [label] at same
    · constructor
      · rintro ⟨⟩
      · intro found
        rcases types id _ found with ⟨-, ⟨⟩⟩ | ⟨-, ⟨⟩⟩ | ⟨-, ⟨⟩⟩
  refine ⟨run, label, ⟨⟨sound.proper, called⟩, ?_, ?_⟩, meanings, by simp [Ledger.builtIns], rfl⟩
  · exact .cons ⟨rfl, rfl, rfl⟩ (.cons ⟨rfl, rfl, rfl⟩ (.cons ⟨rfl, rfl, rfl⟩ .nil))
  · intro symbol member owner owned
    rw [meanings] at member
    simp only [Ledger.builtIns, Set.mem_ofPred_eq, List.mem_cons, Meaning.named.injEq, List.not_mem_nil,
      or_false] at member
    rcases member with rfl | rfl | rfl <;> cases owned

/-- The declarations of a program are as its ledger says. -/
theorem declareAll_settles (file : Option String) (decls : List Surface.TypeDecl)
    (fresh : (builtInNames ++ decls.map Surface.TypeDecl.name).Nodup) :
    ∃ types later label, (do declareBuiltIns; declareAll file decls) {} = .ok types later ∧
      later.Settled label (.ofProgram file decls) ∧
      later.table.Enrolls label types
        ((Ledger.ofProgram file decls).roster.filter fun entry => entry.1 ∉ builtInNames) := by
  have names : ((builtInNames ++ (Surface.objects decls).map Surface.ObjectDecl.name) ++
      (Surface.distincts decls).map Surface.DistinctDecl.name).Nodup := by
    rw [List.append_assoc]
    exact ((Surface.names_perm decls).append_left builtInNames).nodup_iff.mpr fresh
  obtain ⟨builtInObjectNames, distinctNames, -⟩ := List.nodup_append.mp names
  have objectNames := (List.nodup_append.mp builtInObjectNames).2.1
  obtain ⟨runBuiltIns, relabel, settled⟩ := declareBuiltIns_settles
  obtain ⟨entries, first, label₁, runObjects, settled₁, entered, -⟩ :=
    declareObjects_settles file decls settled builtInObjectNames
  obtain ⟨second, label₂, runDistincts, settled₂, retains⟩ :=
    declareDistincts_settles file decls settled₁ (by
      rw [Ledger.foldl_declareObject]
      simpa [Ledger.builtIns, builtInNames, Surface.ObjectDecl.entry, Function.comp_def] using names)
  have symbols : (((Surface.distincts decls).map (Surface.DistinctDecl.symbol file)) ++
      (Surface.objects decls).map (Surface.ObjectDecl.symbol file)).Nodup := by
    refine List.nodup_append.mpr ⟨?_, ?_, ?_⟩
    · exact List.Nodup.of_map Symbol.name (by simpa [Function.comp_def, Surface.DistinctDecl.symbol, Symbol.name] using distinctNames)
    · exact List.Nodup.of_map Symbol.name (by simpa [Function.comp_def, Surface.ObjectDecl.symbol, Symbol.name] using objectNames)
    · simp [Surface.DistinctDecl.symbol, Surface.ObjectDecl.symbol]
  obtain ⟨last, label₃, runBodies, settled₃, -⟩ := defineObjects_settles file settled₂
    (entered.imp fun _ _ told => ⟨told.1, retains _ _ told.2⟩) (by
      rw [Ledger.foldl_declareDistinct _ _ _ distinctNames, Ledger.foldl_declareObject]
      simpa [Ledger.settleAll, Ledger.builtIns, Function.comp_def] using symbols)
  refine ⟨last.names.filter fun entry => entry.1 ∉ builtInNames, last, label₃, ?_, settled₃, ?_⟩
  · rw [bind_run_of_ok runBuiltIns]
    unfold declareAll
    rw [bind_run_of_ok runObjects, bind_run_of_ok runDistincts, bind_run_of_ok runBodies]
    rfl
  · exact settled₃.enrolls.filter fun name => name ∉ builtInNames

end DeclareM
end LifecycleHooks

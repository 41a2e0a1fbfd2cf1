import LifecycleHooks.Program.Lowered
import LifecycleHooks.Proofs.Hook.Signatures
import LifecycleHooks.Proofs.Types.Making

/-!
# Declaring types

Declarations are sound when their table is proper and every declared name stands for an
existing type.  Whatever a program spells and declares, its declarations are made without a
fault and stay sound: what cannot be found is reported, and the unknown type takes its place.
-/

namespace LifecycleHooks

open Attempt

/-- The diagnostics that tell of an incomplete scope graph. -/
def Diagnostic.IsInternal (diagnostic : Diagnostic) : Prop := diagnostic.code = some .missingExitEdge

/-- Type variables that stand for existing types. -/
def TypeVars.Known (typeVars : TypeVars) (table : TypeTable) : Prop :=
  ∀ entry ∈ typeVars, table.Has entry.2

theorem TypeVars.Known.extends_ {typeVars : TypeVars} {table larger : TypeTable} (known : typeVars.Known table)
    (extends_ : table.Extends larger) : typeVars.Known larger :=
  fun entry member => (known entry member).extends_ extends_

theorem TypeVars.known_of {names : List String} {ids : List TypeId} {table : TypeTable}
    (has : ∀ id ∈ ids, table.Has id) : (TypeVars.of names ids).Known table :=
  fun _ member => has _ (List.of_mem_zip (List.mem_reverse.mp member)).2

namespace Declarations

/-- Declarations whose names stand for types of a proper table. -/
structure Sound (declarations : Declarations) : Prop where
  proper : declarations.table.Proper
  names : ∀ entry ∈ declarations.names, declarations.table.Has entry.2
  reports : ∀ diagnostic ∈ declarations.diagnostics, ¬ diagnostic.IsInternal

theorem sound_empty : Declarations.Sound {} :=
  ⟨⟨TypeTable.Built.empty.regular, by simp [TypeTable.builtIns]⟩, by simp, by simp⟩

/-- All types stay in place. -/
def Extends (declarations later : Declarations) : Prop := declarations.table.Extends later.table

instance : IsPreorder Declarations Extends where
  refl declarations := .refl declarations.table
  trans _ _ _ first second := TypeTable.Extends.trans first second

/-- All types and all objects are kept. -/
def Keeps (declarations later : Declarations) : Prop := declarations.table.Keeps later.table

instance : IsPreorder Declarations Keeps where
  refl declarations := TypeTable.Extends.keeps (.refl declarations.table)
  trans _ _ _ first second :=
    ⟨fun id has => second.has id (first.has id has),
      fun id isObject => second.objects id (first.objects id isObject)⟩

variable {declarations later : Declarations}

theorem Extends.has {id : TypeId} (extends_ : declarations.Extends later) (has : declarations.table.Has id) :
    later.table.Has id :=
  TypeTable.Has.extends_ has extends_

theorem Extends.keeps (extends_ : declarations.Extends later) : declarations.Keeps later :=
  TypeTable.Extends.keeps extends_

end Declarations

namespace DeclareM

open Declarations

/-- A computation that resolves to an existing type and keeps declarations sound. -/
def Resolves (action : DeclareM TypeId) (declarations : Declarations) : Prop :=
  Yields Sound Extends (fun id later => later.table.Has id) action declarations

variable {declarations : Declarations} {file : Option String} {typeVars : TypeVars}

section Steps

theorem onTable_yields {Result : Type} {tells : Result → TypeTable → Prop} {action : TableM Result}
    (sound : declarations.Sound)
    (yields : Yields TypeTable.Proper TypeTable.Extends tells action declarations.table) :
    Yields Sound Extends (fun result later => tells result later.table) (onTable action) declarations :=
  Yields.onPart yields
    (fun _ proper extends_ =>
      ⟨⟨proper, fun entry member => (sound.names entry member).extends_ extends_, sound.reports⟩, extends_⟩)
    (fun _ => rfl)

theorem ask_run {Result : Type} {question : TypeTable → Except Fault Result} {answer : Result}
    (answers : question declarations.table = .ok answer) :
    ask question declarations = .ok answer declarations := by
  simp [ask, answers]

theorem report_yields {code : Code} (sound : declarations.Sound) (place : Position) (message : String)
    (notInternal : code ≠ .missingExitEdge) :
    Yields Sound Extends (fun _ _ => True) (report file code place message) declarations := by
  refine yields_modify ⟨sound.proper, sound.names, ?_⟩ (.refl declarations.table) trivial
  refine List.forall_mem_append.mpr ⟨sound.reports, ?_⟩
  simpa [Diagnostic.IsInternal] using notInternal

theorem name_yields {id : TypeId} (sound : declarations.Sound) (spelling : String) (has : declarations.table.Has id) :
    Yields Sound Extends (fun _ _ => True) (name spelling id) declarations := by
  refine yields_modify ⟨sound.proper, ?_, sound.reports⟩ (.refl declarations.table) trivial
  exact List.forall_mem_append.mpr ⟨sound.names, by simpa using has⟩

/-- What is missing is reported, and the unknown type takes its place. -/
theorem report_resolves {code : Code} (sound : declarations.Sound) (place : Position) (message : String)
    (notInternal : code ≠ .missingExitEdge) :
    Resolves (do report file code place message; onTable TableM.unknown) declarations := by
  apply (report_yields sound place message notInternal).bind
  exact fun _ _ sound _ _ => onTable_yields sound (TableM.unknown_makes sound.proper)

end Steps

section Spelling

mutual

/-- Every spelled type resolves. -/
theorem resolveType_resolves : (spelled : Surface.TypeExpr) → (declarations : Declarations) →
    declarations.Sound → typeVars.Known declarations.table →
    Resolves (resolveType file typeVars spelled) declarations
  | .array _ length element, declarations, sound, known => by
      rw [resolveType]
      apply (resolveType_resolves element declarations sound known).bind
      exact fun element middle sound _ has => onTable_yields sound (TableM.array_makes sound.proper length has)
  | .tuple _ elements, declarations, sound, known => by
      rw [resolveType]
      apply (resolveTypes_yields elements declarations sound known).bind
      exact fun ids middle sound _ told => onTable_yields sound (TableM.tuple_makes sound.proper told.1)
  | .wrap _ wrapper inner, declarations, sound, known => by
      rw [resolveType]
      apply (resolveType_resolves inner declarations sound known).bind
      exact fun inner middle sound _ has => onTable_yields sound (TableM.wrap_makes sound.proper wrapper has)
  | .named place name args, declarations, sound, known => by
      rw [resolveType]
      split
      · rename_i typeVar isVar
        split at isVar
        · exact yields_pure sound (known _ (mem_of_lookup isVar))
        · cases isVar
      · refine Yields.read (get_run declarations) ?_
        cases declared : declarations.names.lookup name with
        | none => exact report_resolves sound place _ (by decide)
        | some id =>
            have has := sound.names _ (mem_of_lookup declared)
            obtain ⟨type, found⟩ := has.exists
            refine Yields.read (ask_run (TypeTable.get_eq_ok.mpr found)) ?_
            by_cases sameLength : args.length = type.typeParams.length
            · rw [if_neg (not_not.mpr sameLength)]
              split
              · exact yields_pure sound has
              · rename_i generic
                apply (resolveTypes_yields args declarations sound known).bind
                rintro ids later laterSound extends_ ⟨hasArgs, length⟩
                refine onTable_yields laterSound
                  (TableM.instantiate_makes laterSound.proper (extends_.get? found) (length.trans sameLength) ?_ hasArgs)
                rintro rfl
                exact generic (List.isEmpty_iff.mpr (List.eq_nil_of_length_eq_zero length.symm))
            · rw [if_pos sameLength]
              exact report_resolves sound place _ (by decide)

theorem resolveTypes_yields : (spelled : List Surface.TypeExpr) → (declarations : Declarations) →
    declarations.Sound → typeVars.Known declarations.table →
    Yields Sound Extends (fun ids later => (∀ id ∈ ids, later.table.Has id) ∧ ids.length = spelled.length)
      (resolveTypes file typeVars spelled) declarations
  | [], declarations, sound, _ => by
      rw [resolveTypes]
      exact yields_pure sound ⟨by simp, rfl⟩
  | first :: rest, declarations, sound, known => by
      rw [resolveTypes]
      apply (resolveType_resolves first declarations sound known).bind
      intro id middle sound extends_ has
      apply (resolveTypes_yields rest middle sound (known.extends_ extends_)).bind
      rintro ids last sound extends_ ⟨others, length⟩
      exact yields_pure sound ⟨List.forall_mem_cons.mpr ⟨extends_.has has, others⟩, congrArg (· + 1) length⟩

end

end Spelling

section Declaring

theorem checkFresh_yields (sound : declarations.Sound) (name : String) (place : Position) :
    Yields Sound Extends (fun _ _ => True) (checkFresh file name place) declarations := by
  refine Yields.read (get_run declarations) ?_
  split
  · exact (report_yields sound place _ (by decide)).bind fun _ _ sound _ _ => yields_pure sound trivial
  · exact yields_pure sound trivial

theorem declareObjects_yields (decls : List Surface.TypeDecl) (sound : declarations.Sound) :
    Yields Sound Extends (fun objects later => ∀ entry ∈ objects, later.table.IsObject entry.2)
      (declareObjects file decls) declarations := by
  induction decls generalizing declarations with
  | nil => exact yields_pure sound (by simp)
  | cons decl decls ih =>
      cases decl with
      | distinct decl => exact ih sound
      | object decl =>
          apply (checkFresh_yields sound decl.name decl.place).bind
          intro fresh middle sound _ _
          cases fresh with
          | false => exact ih sound
          | true =>
              have declared :=
                TableM.declareObject_yields sound.proper decl.name decl.typeParams (decl.place.toSpan file)
              apply (onTable_yields sound declared).bind
              intro id middle sound _ isObject
              apply (name_yields sound decl.name isObject.has).bind
              intro _ named sound extends_ _
              apply (ih sound).bind
              intro objects last sound behind others
              refine yields_pure sound (List.forall_mem_cons.mpr ⟨?_, others⟩)
              exact (isObject.extends_ extends_).extends_ behind

theorem declareDistincts_yields (decls : List Surface.TypeDecl) (sound : declarations.Sound) :
    Yields Sound Extends (fun _ _ => True) (declareDistincts file decls) declarations := by
  induction decls generalizing declarations with
  | nil => exact yields_pure sound trivial
  | cons decl decls ih =>
      cases decl with
      | object decl => exact ih sound
      | distinct decl =>
          apply (checkFresh_yields sound decl.name decl.place).bind
          intro fresh middle sound _ _
          cases fresh with
          | false => exact ih sound
          | true =>
              have known : TypeVars.Known [] middle.table := by simp [TypeVars.Known]
              apply (resolveType_resolves decl.underlying middle sound known).bind
              intro underlying later sound _ has
              have makes := TableM.addNamed_makes sound.proper rfl (by simp)
                (show ∀ part ∈ (TypeDef.distinct decl.name underlying (decl.place.toSpan file)).parts, _ by
                  simpa [TypeDef.parts] using has)
              apply (onTable_yields sound makes).bind
              intro id made sound _ has
              exact (name_yields sound decl.name has).bind fun _ _ sound _ _ => ih sound

theorem resolveBase_yields (sound : declarations.Sound) (known : typeVars.Known declarations.table) (owner : String)
    (base : Option Surface.TypeExpr) :
    Yields Sound Extends (fun base later => ∀ id ∈ base, later.table.Has id)
      (resolveBase file typeVars owner base) declarations := by
  cases base with
  | none => exact yields_pure sound (by simp)
  | some spelled =>
      apply (resolveType_resolves spelled declarations sound known).bind
      intro id later sound _ has
      obtain ⟨type, found⟩ := has.exists
      refine Yields.read (ask_run (TypeTable.get_eq_ok.mpr found)) ?_
      obtain ⟨spelling, spells⟩ := TypeTable.spell_answers sound.proper.toWellFormed sound.proper.paramsKnown has
      have refused : Yields Sound Extends (fun base later => ∀ id ∈ base, later.table.Has id) (do
          let spelling ← ask (·.spell id)
          report file .unknownType spelled.place
            s!"base of '{owner}' must be an object type, got '{spelling}'"
          return none : DeclareM (Option TypeId)) later := by
        refine Yields.read (ask_run spells) ?_
        apply (report_yields sound spelled.place _ (by decide)).bind
        exact fun _ _ sound _ _ => yields_pure sound (by simp)
      split
      · exact yields_pure sound (by simpa using has)
      · exact yields_pure sound (by simpa using has)
      · exact yields_pure sound (by simp)
      · exact refused

theorem resolveFields_yields (owner : String) (members : List Surface.Member) (seen : List String)
    (sound : declarations.Sound) (known : typeVars.Known declarations.table) :
    Yields Sound Extends (fun fields later => ∀ field ∈ fields, later.table.Has field.type)
      (resolveFields file typeVars owner seen members) declarations := by
  induction members generalizing seen declarations with
  | nil => exact yields_pure sound (by simp)
  | cons member members ih =>
      unfold resolveFields
      split
      · apply (report_yields sound member.place _ (by decide)).bind
        exact fun _ _ sound extends_ _ => ih seen sound (known.extends_ extends_)
      · apply (resolveType_resolves member.type declarations sound known).bind
        intro type middle sound extends_ has
        apply (ih (member.name :: seen) sound (known.extends_ extends_)).bind
        intro fields last sound extends_ others
        exact yields_pure sound (List.forall_mem_cons.mpr ⟨extends_.has has, others⟩)

/-- A declared object gets a body. -/
theorem defineObject_yields {id : TypeId} (decl : Surface.ObjectDecl) (sound : declarations.Sound)
    (isObject : declarations.table.IsObject id) :
    Yields Sound Keeps (fun _ _ => True) (defineObject file decl id) declarations := by
  obtain ⟨object, found⟩ := isObject
  refine Yields.read (ask_run (TypeTable.get_eq_ok.mpr found)) ?_
  have known : (TypeVars.of decl.typeParams object.params).Known declarations.table :=
    TypeVars.known_of fun param member =>
      sound.proper.paramsKnown id object found param member
  apply ((resolveBase_yields sound known decl.name decl.base).relax fun _ => Extends.keeps).bind
  intro base middle sound first hasBase
  have stillKnown : (TypeVars.of decl.typeParams object.params).Known middle.table :=
    fun entry member => first.has entry.2 (known entry member)
  apply ((resolveFields_yields decl.name decl.fields [] sound stillKnown).relax fun _ => Extends.keeps).bind
  intro fields last sound second hasFields
  have contents : ∀ slot ∈ (⟨fields, base⟩ : Body).slots, last.table.Has slot.type := by
    intro slot member
    rcases List.mem_append.mp member with inBase | inFields
    · obtain ⟨id, isBase, rfl⟩ := List.mem_map.mp inBase
      exact second.has id (hasBase id (Option.mem_toList.mp isBase))
    · obtain ⟨field, isField, rfl⟩ := List.mem_map.mp inFields
      exact hasFields field isField
  have isObject := second.objects id (first.objects id ⟨object, found⟩)
  exact Yields.onPart (TableM.defineObject_yields sound.proper isObject contents)
    (fun _ proper keeps =>
      ⟨⟨proper, fun entry member => keeps.has entry.2 (sound.names entry member), sound.reports⟩, keeps⟩)
    (fun _ => rfl)

/-- The built-in types are named. -/
theorem declareBuiltIns_yields (sound : declarations.Sound) :
    Yields Sound Extends (fun _ _ => True) declareBuiltIns declarations := by
  apply (onTable_yields sound (TableM.int_makes sound.proper)).bind
  intro int _ sound _ has
  apply (name_yields sound "Int" has).bind
  intro _ _ sound _ _
  apply (onTable_yields sound (TableM.bool_makes sound.proper)).bind
  intro bool _ sound _ has
  apply (name_yields sound "Bool" has).bind
  intro _ _ sound _ _
  apply (onTable_yields sound (TableM.void_makes sound.proper)).bind
  intro void _ sound _ has
  exact name_yields sound "Void" has

/-- All types of a program are declared. -/
theorem declareAll_yields (decls : List Surface.TypeDecl) (sound : declarations.Sound) :
    Yields Sound Keeps (fun types later => ∀ entry ∈ types, later.table.Has entry.2)
      (declareAll file decls) declarations := by
  apply ((declareObjects_yields decls sound).relax fun _ => Extends.keeps).bind
  intro objects middle sound _ areObjects
  apply ((declareDistincts_yields decls sound).relax fun _ => Extends.keeps).bind
  intro _ later sound before _
  have defines : Yields Sound Keeps (fun _ _ => True)
      (objects.forM fun entry => defineObject file entry.1 entry.2) later := by
    refine yields_forM (fun entry member last sound keeps => ?_) sound
    have isObject := keeps.objects entry.2 (before.objects entry.2 (areObjects entry member))
    exact defineObject_yields entry.1 sound isObject
  apply defines.bind
  intro _ last sound _ _
  refine Yields.read (get_run last) ?_
  exact yields_pure sound fun entry member => sound.names entry (List.mem_of_mem_filter member)

end Declaring

end DeclareM

/-- A signature over existing types. -/
structure Signature.Known (signature : Signature) (table : TypeTable) : Prop where
  params : ∀ param ∈ signature.params, table.Has param
  result : table.Has signature.result
  typeVars : ∀ typeVar ∈ signature.typeVars, table.Has typeVar

theorem Signature.Known.extends_ {signature : Signature} {table larger : TypeTable} (known : signature.Known table)
    (extends_ : table.Extends larger) : signature.Known larger where
  params param member := (known.params param member).extends_ extends_
  result := known.result.extends_ extends_
  typeVars typeVar member := (known.typeVars typeVar member).extends_ extends_

theorem HookDecl.IsOver.extends_ {decl : HookDecl} {table larger : TypeTable} (isOver : decl.IsOver table)
    (extends_ : table.Extends larger) : decl.IsOver larger :=
  ⟨fun param member => TypeTable.Has.extends_ (isOver.1 param member) extends_,
    TypeTable.Has.extends_ isOver.2 extends_⟩

/-- Heads of procedures over existing types. -/
structure Heads.Known (heads : Heads) (table : TypeTable) : Prop where
  hooks : ∀ hook ∈ heads.hooks, hook.IsOver table
  signatures : ∀ entry ∈ heads.signatures, entry.2.Known table
  procedures : ∀ entry ∈ heads.procedures, entry.2.Known table

theorem Heads.Known.extends_ {heads : Heads} {table larger : TypeTable} (known : heads.Known table)
    (extends_ : table.Extends larger) : heads.Known larger where
  hooks hook member := (known.hooks hook member).extends_ extends_
  signatures entry member := (known.signatures entry member).extends_ extends_
  procedures entry member := (known.procedures entry member).extends_ extends_

namespace DeclareM

open Declarations

variable {declarations : Declarations} {file : Option String}

section Heads

theorem declareTypeVars_yields (names : List String) (sound : declarations.Sound) :
    Yields Sound Extends (fun ids later => ∀ id ∈ ids, later.table.Has id) (declareTypeVars names) declarations := by
  refine yields_mapM (fun name _ later sound _ => ?_) (fun id later last extends_ has => extends_.has has) sound
  exact onTable_yields sound (TableM.addNamed_makes sound.proper rfl (by simp) (by simp [TypeDef.parts]))

theorem resolveSignature_yields (proc : Surface.ProcDecl) (sound : declarations.Sound) :
    Yields Sound Extends (fun signature later => signature.Known later.table)
      (resolveSignature file proc) declarations := by
  apply (declareTypeVars_yields proc.typeParams sound).bind
  intro ids middle sound _ hasIds
  have known : (TypeVars.of proc.typeParams ids).Known middle.table := TypeVars.known_of hasIds
  apply (resolveTypes_yields (proc.params.map Surface.Member.type) middle sound known).bind
  rintro params later sound first ⟨hasParams, -⟩
  -- Whether the result is spelled or not, what is left to do is the same.
  have finish {action : DeclareM TypeId} (resolves : Resolves action later) :
      Yields Sound Extends (fun signature later => signature.Known later.table) (do
        let result ← action
        return { name := proc.name, params := params, result := result, typeVars := ids,
                 isHook := proc.isHook, span := proc.place.toSpan file : Signature }) later := by
    apply resolves.bind
    intro result last sound second hasResult
    exact yields_pure sound ⟨fun param member => second.has (hasParams param member), hasResult,
      fun id member => second.has (first.has (hasIds id member))⟩
  cases proc.result with
  | some spelled => exact finish (resolveType_resolves spelled later sound (known.extends_ first))
  | none => exact finish (onTable_yields sound (TableM.void_makes sound.proper))

theorem hookDecl_yields {signature : Signature} (sound : declarations.Sound)
    (known : signature.Known declarations.table) :
    Yields Sound Extends (fun hook later => hook.IsOver later.table) (hookDecl signature) declarations := by
  have spelled : Yields Sound Extends (fun _ _ => True)
      (signature.params.mapM fun param => ask (·.spell param)) declarations := by
    have each : ∀ param ∈ signature.params, ∀ later, later.Sound → declarations.Extends later →
        Yields Sound Extends (fun _ _ => True) (ask (·.spell param)) later := by
      intro param member later sound extends_
      have has := extends_.has (known.params param member)
      obtain ⟨text, spells⟩ := TypeTable.spell_answers sound.proper.toWellFormed sound.proper.paramsKnown has
      exact safe_of_ok (ask_run spells) ⟨⟨sound, .refl later.table⟩, trivial⟩
    exact yields_mapM_each each sound
  apply spelled.bind
  intro texts later sound extends_ _
  exact yields_pure sound ⟨fun param member => extends_.has (known.params param member), extends_.has known.result⟩

/-- The heads of all procedures are collected, and of no others. -/
theorem collectHeads_yields {heads : Heads} {isMeant : Surface.ProcDecl → Prop} (procs : List Surface.ProcDecl)
    (meant : ∀ proc ∈ procs, isMeant proc) (sound : declarations.Sound) (known : heads.Known declarations.table)
    (before : ∀ entry ∈ heads.procedures, isMeant entry.1) :
    Yields Sound Extends (fun heads later => heads.Known later.table ∧ ∀ entry ∈ heads.procedures, isMeant entry.1)
      (collectHeads file heads procs) declarations := by
  induction procs generalizing heads declarations with
  | nil => exact yields_pure sound ⟨known, before⟩
  | cons proc procs ih =>
      obtain ⟨here, others⟩ := List.forall_mem_cons.mp meant
      have within (signature : Signature) : ∀ entry ∈ heads.procedures ++ [(proc, signature)], isMeant entry.1 :=
        List.forall_mem_append.mpr ⟨before, by simpa using here⟩
      apply (resolveSignature_yields proc sound).bind
      intro signature middle sound extends_ signatureKnown
      have known := known.extends_ extends_
      split
      · apply (hookDecl_yields sound signatureKnown).bind
        intro hook later sound extends_ isOver
        have known := known.extends_ extends_
        refine ih others sound ⟨?_, known.signatures, ?_⟩ (within signature)
        · exact List.forall_mem_append.mpr ⟨known.hooks, by simpa using isOver⟩
        · exact List.forall_mem_append.mpr ⟨known.procedures, by simpa using signatureKnown.extends_ extends_⟩
      · split
        · apply (report_yields sound proc.place _ (by decide)).bind
          exact fun _ _ sound extends_ _ => ih others sound (known.extends_ extends_) before
        · refine ih others sound ⟨known.hooks, ?_, ?_⟩ (within signature)
          · exact List.forall_mem_append.mpr ⟨known.signatures, by simpa using signatureKnown⟩
          · exact List.forall_mem_append.mpr ⟨known.procedures, by simpa using signatureKnown⟩

end Heads

/-- Declare the types of a program, collect the heads of its procedures and lower their bodies. -/
def lowerProgram (file : Option String) (fuel : Nat) (program : Surface.Program) :
    DeclareM (List (String × TypeId) × Heads × List LoweredProcedure) := do
  declareBuiltIns
  let types ← declareAll file program.types
  let heads ← collectHeads file {} program.procs
  let procedures ← lowerBodies file fuel heads.signatures heads.procedures
  return (types, heads, procedures)

end DeclareM

/-- A program is lowered from no declarations. -/
theorem LoweredProgram.ofProgram_eq (file : Option String) (fuel : Nat) (program : Surface.Program) :
    ofProgram file fuel program =
      match DeclareM.lowerProgram file fuel program {} with
      | .ok (types, heads, procedures) declarations =>
          .ok ⟨declarations.table, types, heads.hooks, procedures, declarations.diagnostics⟩
      | .error fault _ => .error fault :=
  rfl

end LifecycleHooks

import LifecycleHooks.Proofs.Answers
import LifecycleHooks.Proofs.Program.Declaring
import LifecycleHooks.Proofs.Types.Scoping

/-!
# The scope of what a program declares

A type is spelled with the type variables of its declaration in scope.  Names stand for types
without type variables, and a generic object is named with all its arguments or reported.  So
what is spelled is saturated and mentions what is in scope only, whatever is wrong with the rest
of the program.
-/

namespace LifecycleHooks

open Attempt

/-- Type variables that stand for types in a scope. -/
def TypeVars.InScope (typeVars : TypeVars) (table : TypeTable) (vars : Set TypeId) : Prop :=
  ∀ entry ∈ typeVars, table.InScope vars entry.2

namespace Declarations

/-- Declarations of a well-scoped table whose names stand for types without type variables. -/
structure WellScoped (declarations : Declarations) : Prop where
  table : declarations.table.WellScoped
  names : ∀ entry ∈ declarations.names, declarations.table.IsGround entry.2

theorem wellScoped_empty : Declarations.WellScoped {} := by
  have noTypes (id : TypeId) : ({} : TypeTable).get? id = none := by simp [TypeTable.get?, TypeTable.cell?]
  refine ⟨⟨sound_empty.proper, ?_, by simp [TypeTable.builtIns], ?_⟩, by simp⟩
  all_goals
    intro id type found
    rw [noTypes id] at found
    cases found

variable {declarations later : Declarations} {vars : Set TypeId} {typeVars : TypeVars}

theorem WellScoped.inScope_extends (wellScoped : declarations.WellScoped) (extends_ : declarations.Extends later)
    {id : TypeId} (inScope : declarations.table.InScope vars id) : later.table.InScope vars id :=
  wellScoped.table.toWellFormed.inScope_extends extends_ inScope

theorem WellScoped.typeVars_extends (wellScoped : declarations.WellScoped) (extends_ : declarations.Extends later)
    (inScope : typeVars.InScope declarations.table vars) : typeVars.InScope later.table vars :=
  fun entry member => wellScoped.inScope_extends extends_ (inScope entry member)

end Declarations

namespace DeclareM

open Declarations

variable {declarations : Declarations} {file : Option String} {typeVars : TypeVars} {vars : Set TypeId}

/-- What is resolved is in scope, and the declarations stay well-scoped. -/
def Fills (vars : Set TypeId) (action : DeclareM TypeId) (declarations : Declarations) : Prop :=
  Gives WellScoped Extends (fun id later => later.table.InScope vars id) action declarations

theorem ask_eq_ok {Result : Type} {question : TypeTable → Except Fault Result} {answer : Result} {later : Declarations} :
    ask question declarations = .ok answer later ↔ question declarations.table = .ok answer ∧ later = declarations := by
  simp [ask]

section Steps

theorem onTable_gives {Result : Type} {tells : Result → TypeTable → Prop} {action : TableM Result}
    (wellScoped : declarations.WellScoped)
    (gives : Gives TypeTable.WellScoped TypeTable.Extends tells action declarations.table) :
    Gives WellScoped Extends (fun result later => tells result later.table) (onTable action) declarations :=
  Gives.onPart gives
    (fun _ table extends_ => ⟨⟨table, fun entry member =>
      wellScoped.table.toWellFormed.isGround_extends extends_ (wellScoped.names entry member)⟩, extends_⟩)
    (fun _ => rfl)

theorem onTable_fills {action : TableM TypeId} (wellScoped : declarations.WellScoped)
    (fills : TableM.Fills vars action declarations.table) : Fills vars (onTable action) declarations :=
  onTable_gives wellScoped fills

theorem builtIn_fills {known : TypeTable → Option TypeId} {remember : TypeId → TypeTable → TypeTable} {type : TypeDef}
    (isBuiltIn : TableM.IsBuiltIn known remember type) (constant : type.kind ≠ .typevar)
    (wellScoped : declarations.WellScoped) : Fills vars (onTable (TableM.builtIn known remember type)) declarations :=
  (onTable_fills wellScoped (TableM.builtIn_fills isBuiltIn constant wellScoped.table)).mono
    fun _ _ _ inScope => inScope.mono (Set.empty_subset _)

theorem report_gives (wellScoped : declarations.WellScoped) (code : Code) (place : Position) (message : String) :
    Gives WellScoped Extends (fun _ _ => True) (report file code place message) declarations :=
  gives_modify ⟨wellScoped.table, wellScoped.names⟩ (.refl declarations.table) trivial

theorem name_gives {id : TypeId} (wellScoped : declarations.WellScoped) (spelling : String)
    (ground : declarations.table.IsGround id) :
    Gives WellScoped Extends (fun _ _ => True) (name spelling id) declarations := by
  refine gives_modify ⟨wellScoped.table, ?_⟩ (.refl declarations.table) trivial
  exact List.forall_mem_append.mpr ⟨wellScoped.names, by simpa using ground⟩

/-- The unknown type, which takes the place of what is reported as missing, is in every scope. -/
theorem report_fills (wellScoped : declarations.WellScoped) (code : Code) (place : Position) (message : String) :
    Fills vars (do report file code place message; onTable TableM.unknown) declarations :=
  (report_gives wellScoped code place message).bind fun _ _ wellScoped _ _ =>
    builtIn_fills TableM.unknown_isBuiltIn (by decide) wellScoped

/-- A generic object is instantiated with types in scope, as many as it has type parameters. -/
theorem instantiate_fills {head : TypeId} {type : TypeDef} {args : List TypeId} (wellScoped : declarations.WellScoped)
    (found : declarations.table.get? head = some type) (sameLength : args.length = type.typeParams.length)
    (nonempty : args ≠ []) (inScope : ∀ arg ∈ args, declarations.table.InScope vars arg) :
    Fills vars (onTable (TableM.instantiate head args)) declarations := by
  have makes := TableM.instantiate_makes wellScoped.table.toProper found sameLength nonempty
    fun arg member => (inScope arg member).saturated.has
  exact onTable_fills wellScoped (TableM.instantiate_fills wellScoped.table makes inScope)

end Steps

mutual

/-- What is spelled mentions the type variables in scope only. -/
theorem resolveType_fills : (spelled : Surface.TypeExpr) → (declarations : Declarations) → declarations.WellScoped →
    typeVars.InScope declarations.table vars → Fills vars (resolveType file typeVars spelled) declarations
  | .array _ length element, declarations, wellScoped, inScope => by
      rw [resolveType]
      apply (resolveType_fills element declarations wellScoped inScope).bind
      intro element middle wellScoped _ inScope
      have makes := TableM.array_makes wellScoped.table.toProper length inScope.saturated.has
      exact onTable_fills wellScoped
        (TableM.intern_fills wellScoped.table rfl makes (by simpa [TypeDef.operands] using inScope))
  | .tuple _ elements, declarations, wellScoped, inScope => by
      rw [resolveType]
      apply (resolveTypes_fills elements declarations wellScoped inScope).bind
      rintro ids middle wellScoped _ ⟨inScope, -⟩
      have makes := TableM.tuple_makes wellScoped.table.toProper fun id member => (inScope id member).saturated.has
      exact onTable_fills wellScoped (TableM.intern_fills wellScoped.table rfl makes inScope)
  | .wrap _ wrapper inner, declarations, wellScoped, inScope => by
      rw [resolveType]
      apply (resolveType_fills inner declarations wellScoped inScope).bind
      intro inner middle wellScoped _ inScope
      have makes := TableM.wrap_makes wellScoped.table.toProper wrapper inScope.saturated.has
      exact onTable_fills wellScoped
        (TableM.intern_fills wellScoped.table rfl makes (by simpa [TypeDef.operands] using inScope))
  | .named place name args, declarations, wellScoped, inScope => by
      rw [resolveType]
      split
      · rename_i typeVar isVar
        split at isVar
        · exact gives_pure wellScoped (inScope _ (mem_of_lookup isVar))
        · cases isVar
      · refine Gives.read (fun _ _ run => (EStateM.Result.ok.inj run).2.symm) fun current run => ?_
        obtain ⟨rfl, -⟩ := EStateM.Result.ok.inj run
        cases declared : declarations.names.lookup name with
        | none => exact report_fills wellScoped _ place _
        | some id =>
            have ground := wellScoped.names _ (mem_of_lookup declared)
            refine Gives.read (fun _ _ run => (ask_eq_ok.mp run).2) fun type run => ?_
            have found := TypeTable.get_eq_ok.mp (ask_eq_ok.mp run).1
            by_cases sameLength : args.length = type.typeParams.length
            · rw [if_neg (not_not.mpr sameLength)]
              split
              · rename_i noArgs
                have noParams : type.typeParams = [] :=
                  List.eq_nil_of_length_eq_zero (sameLength.symm.trans (List.length_eq_zero_iff.mpr (List.isEmpty_iff.mp noArgs)))
                exact gives_pure wellScoped (ground.inScope ⟨type, found, noParams⟩)
              · rename_i generic
                apply (resolveTypes_fills args declarations wellScoped inScope).bind
                rintro ids later laterScoped extends_ ⟨inScope, length⟩
                have nonempty : ids ≠ [] := by
                  rintro rfl
                  exact generic (List.isEmpty_iff.mpr (List.eq_nil_of_length_eq_zero length.symm))
                exact instantiate_fills laterScoped (extends_.get? found) (length.trans sameLength) nonempty inScope
            · rw [if_pos sameLength]
              exact report_fills wellScoped _ place _

theorem resolveTypes_fills : (spelled : List Surface.TypeExpr) → (declarations : Declarations) →
    declarations.WellScoped → typeVars.InScope declarations.table vars →
    Gives WellScoped Extends (fun ids later => (∀ id ∈ ids, later.table.InScope vars id) ∧ ids.length = spelled.length)
      (resolveTypes file typeVars spelled) declarations
  | [], declarations, wellScoped, _ => by
      rw [resolveTypes]
      exact gives_pure wellScoped ⟨by simp, rfl⟩
  | first :: rest, declarations, wellScoped, inScope => by
      rw [resolveTypes]
      apply (resolveType_fills first declarations wellScoped inScope).bind
      intro id middle middleScoped extends_ here
      apply (resolveTypes_fills rest middle middleScoped (wellScoped.typeVars_extends extends_ inScope)).bind
      rintro ids last lastScoped extends_ ⟨others, length⟩
      exact gives_pure lastScoped
        ⟨List.forall_mem_cons.mpr ⟨middleScoped.inScope_extends extends_ here, others⟩, congrArg (· + 1) length⟩

end

section Declaring

theorem checkFresh_gives (wellScoped : declarations.WellScoped) (name : String) (place : Position) :
    Gives WellScoped Extends (fun _ _ => True) (checkFresh file name place) declarations := by
  refine Gives.read (fun _ _ run => (EStateM.Result.ok.inj run).2.symm) fun current _ => ?_
  split
  · exact (report_gives wellScoped _ place _).bind fun _ _ wellScoped _ _ => gives_pure wellScoped trivial
  · exact gives_pure wellScoped trivial

theorem declareBuiltIns_gives (wellScoped : declarations.WellScoped) :
    Gives WellScoped Extends (fun _ _ => True) declareBuiltIns declarations := by
  apply (builtIn_fills TableM.int_isBuiltIn (by decide) wellScoped).bind
  intro int _ wellScoped _ inScope
  apply (name_gives wellScoped "Int" inScope.isGround).bind
  intro _ _ wellScoped _ _
  apply (builtIn_fills TableM.bool_isBuiltIn (by decide) wellScoped).bind
  intro bool _ wellScoped _ inScope
  apply (name_gives wellScoped "Bool" inScope.isGround).bind
  intro _ _ wellScoped _ _
  apply (builtIn_fills TableM.void_isBuiltIn (by decide) wellScoped).bind
  intro void _ wellScoped _ inScope
  exact name_gives wellScoped "Void" inScope.isGround

theorem declareObjects_gives (decls : List Surface.TypeDecl) (wellScoped : declarations.WellScoped) :
    Gives WellScoped Extends (fun objects later => ∀ entry ∈ objects, later.table.IsObject entry.2)
      (declareObjects file decls) declarations := by
  induction decls generalizing declarations with
  | nil => exact gives_pure wellScoped (by simp)
  | cons decl decls ih =>
      cases decl with
      | distinct decl => exact ih wellScoped
      | object decl =>
          apply (checkFresh_gives wellScoped decl.name decl.place).bind
          intro fresh middle wellScoped _ _
          cases fresh with
          | false => exact ih wellScoped
          | true =>
              apply (onTable_gives wellScoped (TableM.declareObject_scopes wellScoped.table decl.name decl.typeParams _)).bind
              intro id middle wellScoped _ isObject
              apply (name_gives wellScoped decl.name (wellScoped.table.toWellFormed.isGround_object isObject)).bind
              intro _ _ wellScoped extends_ _
              apply (ih wellScoped).bind
              intro objects last wellScoped behind others
              refine gives_pure wellScoped (List.forall_mem_cons.mpr ⟨?_, others⟩)
              exact (isObject.extends_ extends_).extends_ behind

/-- A distinct type is spelled where no type variable is in scope. -/
theorem declareDistincts_gives (decls : List Surface.TypeDecl) (wellScoped : declarations.WellScoped) :
    Gives WellScoped Extends (fun _ _ => True) (declareDistincts file decls) declarations := by
  induction decls generalizing declarations with
  | nil => exact gives_pure wellScoped trivial
  | cons decl decls ih =>
      cases decl with
      | object decl => exact ih wellScoped
      | distinct decl =>
          apply (checkFresh_gives wellScoped decl.name decl.place).bind
          intro fresh middle wellScoped _ _
          cases fresh with
          | false => exact ih wellScoped
          | true =>
              have noVars : TypeVars.InScope [] middle.table ∅ := by simp [TypeVars.InScope]
              apply (resolveType_fills decl.underlying middle wellScoped noVars).bind
              intro underlying later wellScoped _ inScope
              apply (onTable_fills wellScoped (TableM.declareDistinct_fills wellScoped.table inScope decl.name _)).bind
              intro id made wellScoped _ inScope
              exact (name_gives wellScoped decl.name inScope.isGround).bind fun _ _ wellScoped _ _ => ih wellScoped

theorem resolveBase_gives (wellScoped : declarations.WellScoped) (inScope : typeVars.InScope declarations.table vars)
    (owner : String) (base : Option Surface.TypeExpr) :
    Gives WellScoped Extends (fun base later => ∀ id ∈ base, later.table.InScope vars id)
      (resolveBase file typeVars owner base) declarations := by
  cases base with
  | none => exact gives_pure wellScoped (by simp)
  | some spelled =>
      apply (resolveType_fills spelled declarations wellScoped inScope).bind
      intro id later wellScoped _ inScope
      refine Gives.read (fun _ _ run => (ask_eq_ok.mp run).2) fun type _ => ?_
      split
      · exact gives_pure wellScoped (by simpa using inScope)
      · exact gives_pure wellScoped (by simpa using inScope)
      · exact gives_pure wellScoped (by simp)
      · refine Gives.read (fun _ _ run => (ask_eq_ok.mp run).2) fun spelling _ => ?_
        apply (report_gives wellScoped _ spelled.place _).bind
        exact fun _ _ wellScoped _ _ => gives_pure wellScoped (by simp)

theorem resolveFields_gives (owner : String) (members : List Surface.Member) (seen : List String)
    (wellScoped : declarations.WellScoped) (inScope : typeVars.InScope declarations.table vars) :
    Gives WellScoped Extends (fun fields later => ∀ field ∈ fields, later.table.InScope vars field.type)
      (resolveFields file typeVars owner seen members) declarations := by
  induction members generalizing seen declarations with
  | nil => exact gives_pure wellScoped (by simp)
  | cons member members ih =>
      unfold resolveFields
      split
      · apply (report_gives wellScoped _ member.place _).bind
        exact fun _ _ middleScoped extends_ _ => ih seen middleScoped (wellScoped.typeVars_extends extends_ inScope)
      · apply (resolveType_fills member.type declarations wellScoped inScope).bind
        intro type middle middleScoped extends_ here
        apply (ih (member.name :: seen) middleScoped (wellScoped.typeVars_extends extends_ inScope)).bind
        intro fields last lastScoped extends_ others
        exact gives_pure lastScoped (List.forall_mem_cons.mpr ⟨middleScoped.inScope_extends extends_ here, others⟩)

/-- The body of an object is spelled with its type parameters in scope. -/
theorem defineObject_gives {id : TypeId} (decl : Surface.ObjectDecl) (wellScoped : declarations.WellScoped)
    (isObject : declarations.table.IsObject id) :
    Gives WellScoped Keeps (fun _ _ => True) (defineObject file decl id) declarations := by
  obtain ⟨object, found⟩ := isObject
  have params : (TypeVars.of decl.typeParams object.params).InScope declarations.table {var | var ∈ object.params} := by
    intro entry member
    have isParam : entry.2 ∈ object.params := (List.of_mem_zip (List.mem_reverse.mp member)).2
    obtain ⟨name, isTypevar⟩ := (wellScoped.table.params id object found).2 entry.2 isParam
    refine ⟨⟨_, isTypevar, rfl⟩, fun var mentions => ?_⟩
    obtain rfl := (wellScoped.table.toWellFormed.mentions_typevar isTypevar).mp mentions
    exact isParam
  refine Gives.read (fun _ _ run => (ask_eq_ok.mp run).2) fun type run => ?_
  obtain rfl := Option.some.inj ((TypeTable.get_eq_ok.mp (ask_eq_ok.mp run).1).symm.trans found)
  intro _ later run
  obtain ⟨base, middle, based, run⟩ := bind_eq_ok.mp run
  obtain ⟨fields, last, listed, run⟩ := bind_eq_ok.mp run
  obtain ⟨table, defined, rfl⟩ := onPart_eq_ok.mp run
  obtain ⟨⟨middleScoped, first⟩, inBase⟩ := resolveBase_gives wellScoped params decl.name decl.base _ _ based
  have params := wellScoped.typeVars_extends first params
  obtain ⟨⟨lastScoped, second⟩, inFields⟩ := resolveFields_gives decl.name decl.fields [] middleScoped params _ _ listed
  have contents : ∀ slot ∈ (⟨fields, base⟩ : Body).slots, last.table.InScope {var | var ∈ object.params} slot.type := by
    intro slot member
    rcases List.mem_append.mp member with ofBase | ofFields
    · obtain ⟨id, isBase, rfl⟩ := List.mem_map.mp ofBase
      exact middleScoped.inScope_extends second (inBase id (Option.mem_toList.mp isBase))
    · obtain ⟨field, isField, rfl⟩ := List.mem_map.mp ofFields
      exact inFields field isField
  have stillObject := TypeTable.Extends.get? second (TypeTable.Extends.get? first found)
  obtain ⟨⟨tableScoped, keeps⟩, trees⟩ := TableM.defineObject_scopes lastScoped.table stillObject contents _ _ defined
  have names : ∀ entry ∈ last.names, table.IsGround entry.2 := fun entry member => by
    obtain ⟨has, closed⟩ := lastScoped.names entry member
    exact ⟨keeps.has entry.2 has, trees ▸ closed⟩
  have before : declarations.Keeps last := Extends.keeps (trans_of Extends first second)
  have keeps : last.Keeps { last with table := table } := keeps
  exact ⟨⟨⟨tableScoped, names⟩, trans_of Keeps before keeps⟩, trivial⟩

/-- The types of a program are declared well-scoped. -/
theorem declareAll_gives (decls : List Surface.TypeDecl) (wellScoped : declarations.WellScoped) :
    Gives WellScoped Keeps (fun _ _ => True) (declareAll file decls) declarations := by
  apply ((declareObjects_gives decls wellScoped).relax fun _ => Extends.keeps).bind
  intro objects middle wellScoped _ areObjects
  apply ((declareDistincts_gives decls wellScoped).relax fun _ => Extends.keeps).bind
  intro _ later wellScoped before _
  have defines : Gives WellScoped Keeps (fun _ _ => True)
      (objects.forM fun entry => defineObject file entry.1 entry.2) later :=
    gives_forM (fun entry member last lastScoped keeps => defineObject_gives entry.1 lastScoped
      (keeps.objects entry.2 (before.objects entry.2 (areObjects entry member)))) wellScoped
  apply defines.bind
  intro _ last wellScoped _ _
  refine Gives.read (fun _ _ run => (EStateM.Result.ok.inj run).2.symm) fun current _ => ?_
  exact gives_pure wellScoped trivial

end Declaring
end DeclareM

/-- A signature over saturated types. -/
structure Signature.IsSaturated (signature : Signature) (table : TypeTable) : Prop where
  params : ∀ param ∈ signature.params, table.IsSaturated param
  result : table.IsSaturated signature.result
  typeVars : ∀ typeVar ∈ signature.typeVars, table.IsSaturated typeVar

theorem Signature.IsSaturated.extends_ {signature : Signature} {table larger : TypeTable}
    (saturated : signature.IsSaturated table) (extends_ : table.Extends larger) : signature.IsSaturated larger where
  params param member := (saturated.params param member).extends_ extends_
  result := saturated.result.extends_ extends_
  typeVars typeVar member := (saturated.typeVars typeVar member).extends_ extends_

/-- Heads of procedures over saturated types. -/
structure Heads.AreSaturated (heads : Heads) (table : TypeTable) : Prop where
  signatures : ∀ entry ∈ heads.signatures, entry.2.IsSaturated table
  procedures : ∀ entry ∈ heads.procedures, entry.2.IsSaturated table

theorem Heads.AreSaturated.extends_ {heads : Heads} {table larger : TypeTable} (saturated : heads.AreSaturated table)
    (extends_ : table.Extends larger) : heads.AreSaturated larger where
  signatures entry member := (saturated.signatures entry member).extends_ extends_
  procedures entry member := (saturated.procedures entry member).extends_ extends_

/-- Type variables that stand for saturated types mention what they please. -/
theorem TypeVars.inScope_of {names : List String} {ids : List TypeId} {table : TypeTable}
    (saturated : ∀ id ∈ ids, table.IsSaturated id) : (TypeVars.of names ids).InScope table Set.univ :=
  fun _ member => (saturated _ (List.of_mem_zip (List.mem_reverse.mp member)).2).inScope

namespace DeclareM

open Declarations

variable {declarations : Declarations} {file : Option String}

section Heads

theorem declareTypeVars_gives (names : List String) (wellScoped : declarations.WellScoped) :
    Gives WellScoped Extends (fun ids later => ∀ id ∈ ids, later.table.IsSaturated id)
      (declareTypeVars names) declarations := by
  refine gives_mapM (fun name _ later wellScoped _ => ?_) (fun id later last extends_ saturated => saturated.extends_ extends_)
    wellScoped
  exact (onTable_fills wellScoped (TableM.typevar_fills wellScoped.table name)).mono fun _ _ _ inScope => inScope.saturated

theorem resolveSignature_gives (proc : Surface.ProcDecl) (wellScoped : declarations.WellScoped) :
    Gives WellScoped Extends (fun signature later => signature.IsSaturated later.table)
      (resolveSignature file proc) declarations := by
  apply (declareTypeVars_gives proc.typeParams wellScoped).bind
  intro ids middle middleScoped _ areSaturated
  have inScope : (TypeVars.of proc.typeParams ids).InScope middle.table Set.univ := TypeVars.inScope_of areSaturated
  apply (resolveTypes_fills (proc.params.map Surface.Member.type) middle middleScoped inScope).bind
  rintro params later laterScoped first ⟨inParams, -⟩
  -- Whether the result is spelled or not, what is left to do is the same.
  have finish {action : DeclareM TypeId} (fills : Fills Set.univ action later) :
      Gives WellScoped Extends (fun signature later => signature.IsSaturated later.table) (do
        let result ← action
        return { name := proc.name, params := params, result := result, typeVars := ids,
                 isHook := proc.isHook, span := proc.place.toSpan file : Signature }) later := by
    apply fills.bind
    intro result last lastScoped second inScope
    exact gives_pure lastScoped ⟨fun param member => (inParams param member).saturated.extends_ second, inScope.saturated,
      fun id member => ((areSaturated id member).extends_ first).extends_ second⟩
  cases proc.result with
  | some spelled =>
      exact finish (resolveType_fills spelled later laterScoped (middleScoped.typeVars_extends first inScope))
  | none => exact finish (builtIn_fills TableM.void_isBuiltIn (by decide) laterScoped)

theorem hookDecl_gives (signature : Signature) (wellScoped : declarations.WellScoped) :
    Gives WellScoped Extends (fun _ _ => True) (hookDecl signature) declarations := by
  intro hook later run
  have asks : (hookDecl signature).Preserves Eq :=
    (leads_mapM fun _ _ => leads_get.bind fun _ => leads_ofExcept _).bind fun _ => leads_pure _
  obtain rfl : declarations = later := asks.of_ok run
  exact ⟨⟨wellScoped, .refl declarations.table⟩, trivial⟩

theorem collectHeads_gives {heads : Heads} (procs : List Surface.ProcDecl) (wellScoped : declarations.WellScoped)
    (saturated : heads.AreSaturated declarations.table) :
    Gives WellScoped Extends (fun heads later => heads.AreSaturated later.table)
      (collectHeads file heads procs) declarations := by
  induction procs generalizing heads declarations with
  | nil => exact gives_pure wellScoped saturated
  | cons proc procs ih =>
      apply (resolveSignature_gives proc wellScoped).bind
      intro signature middle wellScoped extends_ isSaturated
      have saturated := saturated.extends_ extends_
      split
      · apply (hookDecl_gives signature wellScoped).bind
        intro hook later wellScoped extends_ _
        have saturated := saturated.extends_ extends_
        refine ih wellScoped ⟨saturated.signatures, ?_⟩
        exact List.forall_mem_append.mpr ⟨saturated.procedures, by simpa using isSaturated.extends_ extends_⟩
      · split
        · apply (report_gives wellScoped _ proc.place _).bind
          exact fun _ _ wellScoped extends_ _ => ih wellScoped (saturated.extends_ extends_)
        · refine ih wellScoped ⟨?_, ?_⟩
          · exact List.forall_mem_append.mpr ⟨saturated.signatures, by simpa using isSaturated⟩
          · exact List.forall_mem_append.mpr ⟨saturated.procedures, by simpa using isSaturated⟩

end Heads
end DeclareM
end LifecycleHooks

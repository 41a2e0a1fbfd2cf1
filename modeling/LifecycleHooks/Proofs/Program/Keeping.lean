import LifecycleHooks.Proofs.Program.Typing

/-!
# What lowering keeps

While the types of a program are resolved and the bodies of its procedures are lowered, types
are made in few ways only: structural types are interned, built-in types and type variables are
added, and bodies of instances are worked out.  What these steps and the reports of errors keep,
all of lowering keeps.
-/

namespace LifecycleHooks

open Attempt

/-- The codes of what is reported while a program is lowered. -/
def Code.ofLowering : List Code :=
  [.unknownName, .unknownType, .arityMismatch, .duplicateDeclaration, .loopControlOutsideLoop]

/-- A body with fields of the declaration, each with a name of its own. -/
structure Body.IsFor (decl : Surface.ObjectDecl) (body : Body) : Prop where
  members : ∀ field ∈ body.fields, ∃ member ∈ decl.fields, member.name = field.name
  distinct : (body.fields.map Field.name).Nodup

namespace DeclareM

/-- A relation on tables is kept by the steps that make types while a program is lowered, and one
on declarations by changes of the table along it and by reports. -/
structure KeptAlong (kept : TypeTable → TypeTable → Prop) (relation : Declarations → Declarations → Prop)
    [IsPreorder TypeTable kept] [IsPreorder Declarations relation] : Prop where
  interns : ∀ type : TypeDef, type.isStructural = true → (TableM.intern type).Preserves kept
  ints : TableM.int.Preserves kept
  bools : TableM.bool.Preserves kept
  voids : TableM.void.Preserves kept
  unknowns : TableM.unknown.Preserves kept
  bodies : ∀ id, (TableM.body id).Preserves kept
  tables : ∀ (declarations : Declarations) (larger : TypeTable), kept declarations.table larger →
    relation declarations { declarations with table := larger }
  reports : ∀ file code place message, code ∈ Code.ofLowering → (report file code place message).Preserves relation

variable {kept : TypeTable → TypeTable → Prop} {relation : Declarations → Declarations → Prop}
  [IsPreorder TypeTable kept] [IsPreorder Declarations relation] {file : Option String} {typeVars : TypeVars}

theorem ask_preserves {Result : Type} (question : TypeTable → Except Fault Result) :
    (ask question).Preserves relation :=
  leads_get.bind fun _ => leads_ofExcept _

theorem KeptAlong.onTable (along : KeptAlong kept relation) {Result : Type} {action : TableM Result} (keeps : action.Preserves kept) :
    (onTable action).Preserves relation :=
  preserves_onPart keeps fun declarations larger => along.tables declarations larger

mutual

theorem resolveType_preserves (along : KeptAlong kept relation) : (spelled : Surface.TypeExpr) →
    (resolveType file typeVars spelled).Preserves relation
  | .array _ length element => by
      rw [resolveType]
      exact (resolveType_preserves along element).bind fun _ =>
        along.onTable (along.interns _ rfl)
  | .tuple _ elements => by
      rw [resolveType]
      exact (resolveTypes_preserves along elements).bind fun _ =>
        along.onTable (along.interns _ rfl)
  | .wrap _ wrapper inner => by
      rw [resolveType]
      exact (resolveType_preserves along inner).bind fun _ =>
        along.onTable (along.interns _ rfl)
  | .named place name args => by
      rw [resolveType]
      split
      · exact leads_pure _
      · refine leads_get.bind fun declarations => ?_
        split
        · exact (along.reports file _ place _ (by decide)).bind fun _ => along.onTable along.unknowns
        · refine (ask_preserves _).bind fun type => ?_
          dsimp only
          split
          · exact (along.reports file _ place _ (by decide)).bind fun _ => along.onTable along.unknowns
          · split
            · exact leads_pure _
            · exact (resolveTypes_preserves along args).bind fun _ => along.onTable
                (TableM.instantiate_preserves along.interns _ _)

theorem resolveTypes_preserves (along : KeptAlong kept relation) : (spelled : List Surface.TypeExpr) →
    (resolveTypes file typeVars spelled).Preserves relation
  | [] => by
      rw [resolveTypes]
      exact leads_pure _
  | first :: rest => by
      rw [resolveTypes]
      exact (resolveType_preserves along first).bind fun _ =>
        (resolveTypes_preserves along rest).bind fun _ => leads_pure _

end

/-- The names of resolved fields are those of members, and no name occurs twice or was seen before. -/
structure FieldsOf (seen : List String) (members : List Surface.Member) (fields : List Field) : Prop where
  members : ∀ field ∈ fields, ∃ member ∈ members, member.name = field.name
  new : ∀ field ∈ fields, field.name ∉ seen
  distinct : (fields.map Field.name).Nodup

theorem resolveFields_names {owner : String} {seen : List String} {members : List Surface.Member}
    {declarations later : Declarations} {fields : List Field}
    (run : resolveFields file typeVars owner seen members declarations = .ok fields later) :
    FieldsOf seen members fields := by
  induction members generalizing seen declarations later fields with
  | nil =>
      obtain ⟨rfl, -⟩ := EStateM.Result.ok.inj run
      exact ⟨by simp, by simp, by simp⟩
  | cons member members ih =>
      unfold resolveFields at run
      split at run
      · obtain ⟨_, _, _, rest⟩ := bind_eq_ok.mp run
        obtain ⟨inside, new, distinct⟩ := ih rest
        refine ⟨fun field isField => ?_, new, distinct⟩
        obtain ⟨other, isMember, named⟩ := inside field isField
        exact ⟨other, List.mem_cons_of_mem _ isMember, named⟩
      · rename_i unseen
        obtain ⟨type, _, _, run⟩ := bind_eq_ok.mp run
        obtain ⟨others, _, rest, run⟩ := bind_eq_ok.mp run
        obtain ⟨rfl, -⟩ := EStateM.Result.ok.inj run
        obtain ⟨inside, new, distinct⟩ := ih rest
        refine ⟨List.forall_mem_cons.mpr ⟨⟨member, List.mem_cons_self, rfl⟩, fun field isField => ?_⟩,
          List.forall_mem_cons.mpr ⟨unseen, fun field isField => ?_⟩, ?_⟩
        · obtain ⟨other, isMember, named⟩ := inside field isField
          exact ⟨other, List.mem_cons_of_mem _ isMember, named⟩
        · exact fun before => new field isField (List.mem_cons_of_mem _ before)
        · rw [List.map_cons, List.nodup_cons]
          refine ⟨fun again => ?_, distinct⟩
          obtain ⟨field, isField, named⟩ := List.mem_map.mp again
          exact new field isField (named ▸ List.mem_cons_self)

theorem FieldsOf.isFor {decl : Surface.ObjectDecl} {fields : List Field} (fieldsOf : FieldsOf [] decl.fields fields)
    (base : Option TypeId) : Body.IsFor decl ⟨fields, base⟩ :=
  ⟨fieldsOf.members, fieldsOf.distinct⟩

section Resolving

variable (along : KeptAlong kept relation)

include along

theorem resolveBase_preserves (owner : String) (base : Option Surface.TypeExpr) :
    (resolveBase file typeVars owner base).Preserves relation := by
  cases base with
  | none => exact leads_pure _
  | some spelled =>
      refine (resolveType_preserves along spelled).bind fun id => (ask_preserves _).bind fun type => ?_
      split
      · exact leads_pure _
      · exact leads_pure _
      · exact leads_pure _
      · exact (ask_preserves _).bind fun _ =>
          (along.reports file _ spelled.place _ (by decide)).bind fun _ => leads_pure _

theorem resolveFields_preserves (owner : String) (members : List Surface.Member) (seen : List String) :
    (resolveFields file typeVars owner seen members).Preserves relation := by
  induction members generalizing seen with
  | nil => exact leads_pure _
  | cons member members ih =>
      unfold resolveFields
      split
      · exact (along.reports file _ member.place _ (by decide)).bind fun _ => ih seen
      · exact (resolveType_preserves along member.type).bind fun _ => (ih _).bind fun _ => leads_pure _

theorem defineObject_preserves (decl : Surface.ObjectDecl) (id : TypeId)
    (defines : ∀ contents : Body, contents.IsFor decl → (TableM.defineObject id contents).Preserves kept) :
    (defineObject file decl id).Preserves relation := by
  refine (ask_preserves _).bind fun _ => (resolveBase_preserves along decl.name decl.base).bind fun base => ?_
  refine (resolveFields_preserves along decl.name decl.fields []).bind_of_run fun _ fields _ run => ?_
  exact along.onTable (defines _ ((resolveFields_names run).isFor base))

theorem resolveSignature_preserves {proc : Surface.ProcDecl}
    (typevars : ∀ name ∈ proc.typeParams, (TableM.typevar name).Preserves kept) :
    (resolveSignature file proc).Preserves relation := by
  have declares : (declareTypeVars proc.typeParams).Preserves relation :=
    leads_mapM fun name member => along.onTable (typevars name member)
  refine declares.bind fun ids => (resolveTypes_preserves along _).bind fun params => ?_
  cases proc.result with
  | some spelled => exact (resolveType_preserves along spelled).bind fun _ => leads_pure _
  | none => exact (along.onTable along.voids).bind fun _ => leads_pure _

theorem collectHeads_preserves {procs : List Surface.ProcDecl}
    (typevars : ∀ proc ∈ procs, ∀ name ∈ proc.typeParams, (TableM.typevar name).Preserves kept) (heads : Heads) :
    (collectHeads file heads procs).Preserves relation := by
  induction procs generalizing heads with
  | nil => exact leads_pure _
  | cons proc procs ih =>
      obtain ⟨first, others⟩ := List.forall_mem_cons.mp typevars
      refine (resolveSignature_preserves along first).bind fun signature => ?_
      split
      · have spells : (hookDecl signature).Preserves relation :=
          (leads_mapM fun _ _ => ask_preserves _).bind fun _ => leads_pure _
        exact spells.bind fun _ => ih others _
      · split
        · exact (along.reports file _ proc.place _ (by decide)).bind fun _ => ih others heads
        · exact ih others _

end Resolving
end DeclareM

namespace BodyState

/-- A relation on declarations, where they are part of the state of lowering a body. -/
def Along (relation : Declarations → Declarations → Prop) (state later : BodyState) : Prop :=
  relation state.declarations later.declarations

instance (relation : Declarations → Declarations → Prop) [IsPreorder Declarations relation] :
    IsPreorder BodyState (Along relation) where
  refl state := refl_of relation state.declarations
  trans _ _ _ first second := trans_of relation first second

end BodyState

namespace BodyM

open BodyState

/-- Relations along which everything leads that the statements of a body are lowered with. -/
structure LeadsStatements (context : BodyContext) (done failed : BodyState → BodyState → Prop) : Prop where
  exprs : ∀ expr, (lowerExpr context expr).Leads done failed
  declares : ∀ place name type value mutability,
    (lowerDeclaration context place name type value mutability).Leads done failed
  strays : ∀ place message, (report context .loopControlOutsideLoop place message).Leads done failed
  opens : ∀ state : BodyState, done state { state with scopes := [] :: state.scopes }
  closes : ∀ state : BodyState, done state { state with scopes := state.scopes.tail }

variable {done failed : BodyState → BodyState → Prop} [IsLead done failed] {context : BodyContext}

section Statements

variable (leads : LeadsStatements context done failed)

include leads

theorem lowerExpr?_leads (expr : Option Surface.Expr) :
    (lowerExpr? context expr).Leads done failed := by
  cases expr with
  | none => exact leads_pure _
  | some expr => exact (leads.exprs expr).bind fun _ => leads_pure _

theorem lowerControl_leads (inLoop : Bool) (place : Position) (word : String) (control : Note → Stmt) :
    (lowerControl context inLoop place word control).Leads done failed := by
  unfold lowerControl
  split
  · exact leads_pure _
  · exact (leads.strays place _).bind fun _ => leads_pure _

theorem inScope_leads {Result : Type} {action : BodyM Result} (inner : action.Leads done failed) :
    (inScope action).Leads done failed := by
  have closes : (modify fun state => { state with scopes := state.scopes.tail } : BodyM Unit).Leads done failed :=
    leads_modify leads.closes
  exact Leads.bind (leads_modify leads.opens) fun _ => inner.bind fun _ => closes.bind fun _ => leads_pure _

end Statements

mutual

theorem lowerStmt_leads (leads : LeadsStatements context done failed) (inLoop : Bool) : (statement : Surface.Stmt) →
    (lowerStmt context inLoop statement).Leads done failed
  | .declare place name type value mutability => by
      rw [lowerStmt]
      exact (leads.declares place name type value mutability).bind fun _ => leads_pure _
  | .assign place target value => by
      rw [lowerStmt]
      exact (leads.exprs target).bind fun _ =>
        (leads.exprs value).bind fun _ => leads_pure _
  | .expr place inner => by
      rw [lowerStmt]
      exact (leads.exprs inner).bind fun _ => leads_pure _
  | .return place value => by
      rw [lowerStmt]
      exact (lowerExpr?_leads leads value).bind fun _ => leads_pure _
  | .branch place condition yes none => by
      rw [lowerStmt]
      exact (leads.exprs condition).bind fun _ =>
        (lowerBlock_leads leads inLoop yes).bind fun _ => leads_pure _
  | .branch place condition yes (some no) => by
      rw [lowerStmt]
      exact (leads.exprs condition).bind fun _ =>
        (lowerBlock_leads leads inLoop yes).bind fun _ =>
          (lowerBlock_leads leads inLoop no).bind fun _ => leads_pure _
  | .loop place condition body => by
      rw [lowerStmt]
      exact (leads.exprs condition).bind fun _ =>
        (lowerBlock_leads leads true body).bind fun _ => leads_pure _
  | .break place => by
      rw [lowerStmt]
      exact lowerControl_leads leads inLoop place _ _
  | .continue place => by
      rw [lowerStmt]
      exact lowerControl_leads leads inLoop place _ _
  | .block _ block => by
      rw [lowerStmt]
      exact (lowerBlock_leads leads inLoop block).bind fun _ => leads_pure _
  | .spawn place operand => by
      rw [lowerStmt]
      refine (leads.exprs operand).bind fun lowered => ?_
      split
      · exact leads_pure _
      · exact leads_throw _

theorem lowerBlock_leads (leads : LeadsStatements context done failed) (inLoop : Bool) : (block : Surface.Block) →
    (lowerBlock context inLoop block).Leads done failed
  | .mk place statements => by
      rw [lowerBlock]
      exact (inScope_leads leads (lowerStmts_leads leads inLoop statements)).bind fun _ => leads_pure _

theorem lowerStmts_leads (leads : LeadsStatements context done failed) (inLoop : Bool) : (statements : List Surface.Stmt) →
    (lowerStmts context inLoop statements).Leads done failed
  | [] => by
      rw [lowerStmts]
      exact leads_pure _
  | statement :: rest => by
      rw [lowerStmts]
      exact (lowerStmt_leads leads inLoop statement).bind fun _ =>
        (lowerStmts_leads leads inLoop rest).bind fun _ => leads_pure _

end

variable {kept : TypeTable → TypeTable → Prop} {relation : Declarations → Declarations → Prop}
  [IsPreorder TypeTable kept] [IsPreorder Declarations relation]

omit [IsPreorder Declarations relation] in
theorem onDeclarations_preserves {Result : Type} {action : DeclareM Result} (keeps : action.Preserves relation) :
    (onDeclarations action).Preserves (Along relation) :=
  preserves_onPart keeps fun _ _ kept => kept

theorem ask_preserves {Result : Type} (question : TypeTable → Except Fault Result) :
    (ask question).Preserves (Along relation) :=
  leads_get.bind fun _ => leads_ofExcept _

theorem bind_preserves (name : String) (type : TypeId) : (bind name type).Preserves (Along relation) :=
  fun state => refl_of relation state.declarations

section Typing

variable (along : DeclareM.KeptAlong kept relation)

include along

theorem onTable_preserves {Result : Type} {action : TableM Result} (keeps : action.Preserves kept) :
    (onTable action).Preserves (Along relation) :=
  onDeclarations_preserves (along.onTable keeps)

theorem report_preserves {code : Code} (isCode : code ∈ Code.ofLowering) (place : Position) (message : String) :
    (report context code place message).Preserves (Along relation) :=
  onDeclarations_preserves (along.reports context.file code place message isCode)

/-- What is missing is reported, and the unknown type takes its place. -/
theorem reportUnknown_preserves {code : Code} (isCode : code ∈ Code.ofLowering) (place : Position) (message : String) :
    (do report context code place message; onTable TableM.unknown : BodyM TypeId).Preserves (Along relation) :=
  (report_preserves along isCode place message).bind fun _ => onTable_preserves along along.unknowns

theorem typeCall_preserves (place : Position) (callee : String) (args : List Expr) :
    (typeCall context place callee args).Preserves (Along relation) := by
  unfold typeCall
  split
  · exact reportUnknown_preserves along (by decide) place _
  · split
    · exact reportUnknown_preserves along (by decide) place _
    · split
      · exact leads_pure _
      · exact (ask_preserves _).bind fun _ => onTable_preserves along
          (TableM.substitute_preserves along.interns _ _)

theorem typeField_preserves (place : Position) (subject : TypeId) (name : String) :
    (typeField context place subject name).Preserves (Along relation) := by
  refine (ask_preserves _).bind fun owner => (ask_preserves _).bind fun type => ?_
  split
  · exact leads_pure _
  · have looks : (TableM.fieldType? context.fuel owner name).Preserves kept :=
      TableM.fieldTypeFrom_preserves along.bodies name context.fuel [] owner
    refine (onTable_preserves along looks).bind fun found => ?_
    split
    · exact leads_pure _
    · exact (ask_preserves _).bind fun _ => reportUnknown_preserves along (by decide) place _

end Typing

mutual

theorem lowerExpr_preserves (along : DeclareM.KeptAlong kept relation) : (expr : Surface.Expr) → (lowerExpr context expr).Preserves (Along relation)
  | .name place name => by
      rw [lowerExpr]
      refine (leads_get.bind fun _ => leads_pure _).bind fun found => ?_
      split
      · exact leads_pure _
      · exact (report_preserves along (by decide) place _).bind fun _ =>
          (onTable_preserves along along.unknowns).bind fun _ => leads_pure _
  | .integer place value => by
      rw [lowerExpr]
      exact (onTable_preserves along along.ints).bind fun _ => leads_pure _
  | .boolean place value => by
      rw [lowerExpr]
      exact (onTable_preserves along along.bools).bind fun _ => leads_pure _
  | .call place callee args => by
      rw [lowerExpr]
      exact (lowerExprs_preserves along args).bind fun _ =>
        (typeCall_preserves along place callee _).bind fun _ => leads_pure _
  | .field place subject name => by
      rw [lowerExpr]
      refine (lowerExpr_preserves along subject).bind fun lowered => ?_
      split
      · exact leads_pure _
      · exact (typeField_preserves along place _ name).bind fun _ => leads_pure _

theorem lowerExprs_preserves (along : DeclareM.KeptAlong kept relation) : (exprs : List Surface.Expr) →
    (lowerExprs context exprs).Preserves (Along relation)
  | [] => by
      rw [lowerExprs]
      exact leads_pure _
  | expr :: rest => by
      rw [lowerExprs]
      exact (lowerExpr_preserves along expr).bind fun _ =>
        (lowerExprs_preserves along rest).bind fun _ => leads_pure _

end

section Bodies

variable (along : DeclareM.KeptAlong kept relation)

include along

theorem lowerDeclaration_preserves (place : Position) (name : String) (type : Option Surface.TypeExpr)
    (value : Option Surface.Expr) (mutability : Bool) :
    (lowerDeclaration context place name type value mutability).Preserves (Along relation) := by
  have resolves : (type.mapM fun spelled => onDeclarations
      (DeclareM.resolveType context.file context.typeVars spelled)).Preserves (Along relation) := by
    cases type with
    | none => exact leads_pure none
    | some spelled =>
        exact (onDeclarations_preserves (DeclareM.resolveType_preserves along spelled)).bind fun _ => leads_pure _
  have lowers : (lowerExpr? context value).Preserves (Along relation) := by
    cases value with
    | none => exact leads_pure _
    | some expr => exact (lowerExpr_preserves along expr).bind fun _ => leads_pure _
  refine lowers.bind fun value => resolves.bind fun declared => ?_
  have finish (type : TypeId) : (do
      let binding ← bind name type
      return Stmt.declare (noteAt context place) name value declared mutability (some binding) :
        BodyM Stmt).Preserves (Along relation) :=
    (bind_preserves name type).bind fun _ => leads_pure _
  split
  · exact finish _
  · exact (report_preserves along (by decide) place _).bind fun _ =>
      (onTable_preserves along along.unknowns).bind finish

theorem leadsStatements : LeadsStatements context (Along relation) (Along relation) where
  exprs := lowerExpr_preserves along
  declares := lowerDeclaration_preserves along
  strays place message := report_preserves along (by decide) place message
  opens state := refl_of relation state.declarations
  closes state := refl_of relation state.declarations

theorem lowerProcedure_preserves (proc : Surface.ProcDecl) (signature : Signature) :
    (lowerProcedure context proc signature).Preserves (Along relation) := by
  have binds (members : List (Surface.Member × TypeId)) : (lowerParams context members).Preserves (Along relation) := by
    induction members with
    | nil => exact leads_pure _
    | cons member members ih => exact (bind_preserves _ _).bind fun _ => ih.bind fun _ => leads_pure _
  refine (binds _).bind fun params => (ask_preserves _).bind fun type => ?_
  have finish (resultBinding : Option BindingId) : (do
      let body ← lowerBlock context false proc.body
      let procedure : Procedure :=
        { note := noteAt context proc.place
          name := proc.name
          params := params
          result := signature.result
          body := body
          resultBinding := resultBinding }
      return (procedure.number 1).1 : BodyM Procedure).Preserves (Along relation) :=
    (lowerBlock_leads (leadsStatements along) false proc.body).bind fun _ => leads_pure _
  split
  · exact finish none
  · exact ((bind_preserves "result" _).bind fun _ => leads_pure _).bind finish

end Bodies
end BodyM

namespace DeclareM

variable {kept : TypeTable → TypeTable → Prop} {relation : Declarations → Declarations → Prop}
  [IsPreorder TypeTable kept] [IsPreorder Declarations relation] {file : Option String}

omit [IsPreorder Declarations relation] in
theorem ofBody_preserves {lower : BodyM LoweredProcedure} (keeps : lower.Preserves (BodyState.Along relation)) :
    Preserves relation (fun declarations =>
      match lower { declarations := declarations } with
      | .ok lowered state => .ok lowered state.declarations
      | .error fault state => .error fault state.declarations : DeclareM LoweredProcedure) := by
  intro declarations
  have kept := keeps { declarations := declarations }
  dsimp only
  cases run : lower { declarations := declarations } with
  | ok lowered state =>
      rw [run] at kept
      exact kept
  | error fault state =>
      rw [run] at kept
      exact kept

theorem lowerBodies_preserves (along : KeptAlong kept relation) (fuel : Nat) (signatures : List (String × Signature))
    (procs : List (Surface.ProcDecl × Signature)) :
    (lowerBodies file fuel signatures procs).Preserves relation := by
  induction procs with
  | nil => exact leads_pure _
  | cons head procs ih =>
      refine (ofBody_preserves ?_).bind fun _ => ih.bind fun _ => leads_pure _
      exact (BodyM.lowerProcedure_preserves along head.1 head.2).bind fun _ => leads_get.bind fun _ => leads_pure _

section Program

variable (along : KeptAlong kept relation) (names : ∀ spelling id, (name spelling id).Preserves relation)

include along

theorem checkFresh_preserves (name : String) (place : Position) : (checkFresh file name place).Preserves relation := by
  refine leads_get.bind fun declarations => ?_
  split
  · exact (along.reports file _ place _ (by decide)).bind fun _ => leads_pure _
  · exact leads_pure _

include names

theorem declareBuiltIns_preserves : declareBuiltIns.Preserves relation := by
  refine (along.onTable along.ints).bind fun int => (names _ int).bind fun _ => ?_
  refine (along.onTable along.bools).bind fun bool => (names _ bool).bind fun _ => ?_
  exact (along.onTable along.voids).bind fun void => names _ void

theorem declareObjects_preserves {decls : List Surface.TypeDecl}
    (declares : ∀ decl, .object decl ∈ decls →
      (TableM.declareObject decl.name decl.typeParams (decl.place.toSpan file)).Preserves kept) :
    (declareObjects file decls).Preserves relation := by
  induction decls with
  | nil => exact leads_pure _
  | cons decl rest ih =>
      have others := ih fun other member => declares other (List.mem_cons_of_mem _ member)
      cases decl with
      | distinct decl => exact others
      | object decl =>
          refine (checkFresh_preserves along decl.name decl.place).bind fun fresh => ?_
          split
          · exact (along.onTable (declares decl List.mem_cons_self)).bind fun id =>
              (names decl.name id).bind fun _ => others.bind fun _ => leads_pure _
          · exact others

theorem declareDistincts_preserves {decls : List Surface.TypeDecl}
    (declares : ∀ decl underlying, .distinct decl ∈ decls →
      (TableM.declareDistinct decl.name underlying (decl.place.toSpan file)).Preserves kept) :
    (declareDistincts file decls).Preserves relation := by
  induction decls with
  | nil => exact leads_pure _
  | cons decl rest ih =>
      have others := ih fun other underlying member => declares other underlying (List.mem_cons_of_mem _ member)
      cases decl with
      | object decl => exact others
      | distinct decl =>
          refine (checkFresh_preserves along decl.name decl.place).bind fun fresh => ?_
          split
          · exact (resolveType_preserves along decl.underlying).bind fun underlying =>
              (along.onTable (declares decl underlying List.mem_cons_self)).bind fun id =>
                (names decl.name id).bind fun _ => others
          · exact others

omit along names [IsPreorder TypeTable kept] [IsPreorder Declarations relation] in
/-- Only declared objects are declared. -/
theorem declareObjects_subset {decls : List Surface.TypeDecl} {declarations later : Declarations}
    {entries : List (Surface.ObjectDecl × TypeId)} (run : declareObjects file decls declarations = .ok entries later) :
    ∀ entry ∈ entries, .object entry.1 ∈ decls := by
  induction decls generalizing declarations later entries with
  | nil =>
      obtain ⟨rfl, -⟩ := EStateM.Result.ok.inj run
      simp
  | cons decl rest ih =>
      cases decl with
      | distinct decl => exact fun entry member => List.mem_cons_of_mem _ (ih run entry member)
      | object decl =>
          unfold declareObjects at run
          obtain ⟨fresh, _, _, run⟩ := bind_eq_ok.mp run
          split at run
          · obtain ⟨id, _, _, run⟩ := bind_eq_ok.mp run
            obtain ⟨_, _, _, run⟩ := bind_eq_ok.mp run
            obtain ⟨others, _, declared, run⟩ := bind_eq_ok.mp run
            obtain ⟨rfl, -⟩ := EStateM.Result.ok.inj run
            refine List.forall_mem_cons.mpr ⟨List.mem_cons_self, fun entry member => ?_⟩
            exact List.mem_cons_of_mem _ (ih declared entry member)
          · exact fun entry member => List.mem_cons_of_mem _ (ih run entry member)

/-- What declaring types and type variables and giving objects their bodies keep as well, the lowering
of a program keeps. -/
theorem lowerProgram_preserves (fuel : Nat) {program : Surface.Program}
    (objects : ∀ decl, .object decl ∈ program.types →
      (TableM.declareObject decl.name decl.typeParams (decl.place.toSpan file)).Preserves kept)
    (distincts : ∀ decl underlying, .distinct decl ∈ program.types →
      (TableM.declareDistinct decl.name underlying (decl.place.toSpan file)).Preserves kept)
    (defines : ∀ decl, .object decl ∈ program.types → ∀ id (contents : Body), contents.IsFor decl →
      (TableM.defineObject id contents).Preserves kept)
    (typevars : ∀ proc ∈ program.procs, ∀ name ∈ proc.typeParams, (TableM.typevar name).Preserves kept) :
    (lowerProgram file fuel program).Preserves relation := by
  refine (declareBuiltIns_preserves along names).bind fun _ => Leads.bind ?declares fun types => ?bodies
  case declares =>
    refine (declareObjects_preserves along names objects).bind_of_run fun _ entries _ run => ?_
    refine (declareDistincts_preserves along names distincts).bind fun _ => Leads.bind ?_ fun _ =>
      leads_get.bind fun _ => leads_pure _
    exact leads_forM fun entry member => defineObject_preserves along entry.1 entry.2
      (defines entry.1 (declareObjects_subset run entry member) entry.2)
  case bodies =>
    exact (collectHeads_preserves along typevars {}).bind fun heads =>
      (lowerBodies_preserves along fuel heads.signatures heads.procedures).bind fun _ => leads_pure _

end Program
end DeclareM
end LifecycleHooks

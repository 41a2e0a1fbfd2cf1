import LifecycleHooks.Proofs.Program.Keeping
import LifecycleHooks.Proofs.Program.Ledgers
import LifecycleHooks.Proofs.Types.Adding

/-!
# Where declared types stand

Every object and every distinct type of a lowered program goes back to one of its declarations:
it has the name of the declaration and stands at its place.  What is reported while a program is
lowered tells of names, types and arguments, but not of types that contain themselves.
-/

namespace LifecycleHooks

open Attempt

/-- The place of a type declaration. -/
def Surface.TypeDecl.place : TypeDecl → Position
  | .object decl => decl.place
  | .distinct decl => decl.place

/-- The name and the place of the declaration that an object or a distinct type keeps. -/
def TypeDef.origin? : TypeDef → Option (String × Span)
  | .object declared => some (declared.name, declared.span)
  | .distinct name _ span => some (name, span)
  | _ => none

namespace TypeTable

/-- The objects and the distinct types of a table go back to the given declarations. -/
def GoesBack (file : Option String) (decls : List Surface.TypeDecl) (table : TypeTable) : Prop :=
  ∀ id type, table.get? id = some type → ∀ origin, type.origin? = some origin →
    ∃ decl ∈ decls, origin = (decl.name, decl.place.toSpan file)

variable {file : Option String} {decls : List Surface.TypeDecl} {table larger : TypeTable} {type : TypeDef}

theorem GoesBack.of_get? (goesBack : table.GoesBack file decls) (same : ∀ id, larger.get? id = table.get? id) :
    larger.GoesBack file decls :=
  fun id type found => goesBack id type ((same id).symm.trans found)

theorem GoesBack.add (goesBack : table.GoesBack file decls)
    (declared : ∀ origin, type.origin? = some origin → ∃ decl ∈ decls, origin = (decl.name, decl.place.toSpan file)) :
    (table.add type).2.GoesBack file decls := by
  intro id other found
  rw [get?_add] at found
  split at found
  · obtain rfl := Option.some.inj found
    exact declared
  · exact goesBack id other found

theorem GoesBack.withTypevars (goesBack : table.GoesBack file decls) (names : List String) :
    (table.withTypevars names).GoesBack file decls := by
  intro id type found origin isOrigin
  obtain ⟨_, rfl⟩ | before := withTypevars_type found
  · cases isOrigin
  · exact goesBack id type before origin isOrigin

end TypeTable

namespace TableM

open TypeTable

variable {file : Option String} {decls : List Surface.TypeDecl} {type : TypeDef}

theorem add_goesBack (declared : ∀ origin, type.origin? = some origin → ∃ decl ∈ decls, origin = (decl.name, decl.place.toSpan file)) :
    (add type).Preserves (Lasts (GoesBack file decls)) :=
  fun _ goesBack => goesBack.add declared

/-- Only objects and distinct types keep where they were declared. -/
theorem add_unnamed_goesBack (unnamed : type.origin? = none) : (add type).Preserves (Lasts (GoesBack file decls)) :=
  add_goesBack fun origin isOrigin => by simp [unnamed] at isOrigin

theorem intern_goesBack (structural : type.isStructural = true) :
    (intern type).Preserves (Lasts (GoesBack file decls)) := by
  refine leads_get.bind fun table => ?_
  split
  · exact leads_pure _
  · refine add_unnamed_goesBack ?_
    cases type <;> first | rfl | cases structural

theorem builtIn_goesBack {known : TypeTable → Option TypeId} {remember : TypeId → TypeTable → TypeTable}
    (isBuiltIn : IsBuiltIn known remember type) : (builtIn known remember type).Preserves (Lasts (GoesBack file decls)) := by
  have unnamed : type.origin? = none := by
    cases type with
    | object declared => exact absurd rfl (isBuiltIn.notObject declared)
    | distinct => cases isBuiltIn.parts
    | _ => rfl
  refine leads_get.bind fun table => ?_
  split
  · exact leads_pure _
  · refine (add_unnamed_goesBack unnamed).bind fun id =>
      (leads_modify fun table goesBack => ?_).bind fun _ => leads_pure _
    exact goesBack.of_get? fun other => by simp only [get?, cell?, isBuiltIn.sameCells]

theorem body_goesBack (id : TypeId) : (body id).Preserves (Lasts (GoesBack file decls)) := by
  refine body_preserves (fun _ => intern_goesBack) (fun table id body goesBack => ?_) id
  refine goesBack.of_get? fun other => table.get?_modifyCell ?_ id other
  exact fun _ => rfl

theorem declareObject_goesBack (name : String) (params : List String) (span : Span)
    (declared : ∃ decl ∈ decls, (name, span) = (decl.name, decl.place.toSpan file)) :
    (declareObject name params span).Preserves (Lasts (GoesBack file decls)) := by
  intro table
  rw [declareObject_run]
  refine fun goesBack => (goesBack.add fun origin isOrigin => ?_).withTypevars params
  exact Option.some.inj isOrigin ▸ declared

theorem defineObject_goesBack (id : TypeId) (contents : Body) :
    (defineObject id contents).Preserves (Lasts (GoesBack file decls)) := by
  refine defineObject_preserves fun table object isObject goesBack other type found origin isOrigin => ?_
  rw [get?_withBody isObject] at found
  split at found
  · obtain rfl := Option.some.inj found
    exact goesBack id _ isObject origin isOrigin
  · exact goesBack other type found origin isOrigin

end TableM

namespace Declarations

/-- The declared types go back to the given declarations, and nothing was reported about types that
contain themselves. -/
structure Placed (file : Option String) (decls : List Surface.TypeDecl) (declarations : Declarations) : Prop where
  table : declarations.table.GoesBack file decls
  reports : ∀ diagnostic ∈ declarations.diagnostics, diagnostic.code ≠ some .unresolvableRecursion

end Declarations

namespace DeclareM

open Declarations TypeTable

variable {file : Option String} {decls : List Surface.TypeDecl}

theorem report_placed {code : Code} (other : code ≠ .unresolvableRecursion) (place : Position) (message : String)
    (about : Option String) : (report about code place message).Preserves (Lasts (Placed file decls)) := by
  refine leads_modify fun declarations placed => ⟨placed.table, List.forall_mem_append.mpr ⟨placed.reports, ?_⟩⟩
  simpa using other

theorem placed_keptAlong (file : Option String) (decls : List Surface.TypeDecl) :
    KeptAlong (Lasts (GoesBack file decls)) (Lasts (Placed file decls)) where
  interns _ := TableM.intern_goesBack
  ints := TableM.builtIn_goesBack TableM.int_isBuiltIn
  bools := TableM.builtIn_goesBack TableM.bool_isBuiltIn
  voids := TableM.builtIn_goesBack TableM.void_isBuiltIn
  unknowns := TableM.builtIn_goesBack TableM.unknown_isBuiltIn
  bodies := TableM.body_goesBack
  tables _ _ kept placed := ⟨kept placed.table, placed.reports⟩
  reports about code place message isCode := by
    refine report_placed ?_ place message about
    rintro rfl
    simp [Code.ofLowering] at isCode

theorem name_placed (spelling : String) (id : TypeId) : (name spelling id).Preserves (Lasts (Placed file decls)) :=
  leads_modify fun _ placed => ⟨placed.table, placed.reports⟩

theorem lowerProgram_placed (file : Option String) (fuel : Nat) (program : Surface.Program) :
    (lowerProgram file fuel program).Preserves (Lasts (Placed file program.types)) := by
  apply lowerProgram_preserves (placed_keptAlong file program.types) name_placed fuel
  · exact fun decl isDecl => TableM.declareObject_goesBack decl.name decl.typeParams _ ⟨_, isDecl, rfl⟩
  · exact fun decl underlying isDecl =>
      TableM.add_goesBack fun origin isOrigin => ⟨_, isDecl, (Option.some.inj isOrigin).symm⟩
  · exact fun _ _ id contents _ => TableM.defineObject_goesBack id contents
  · exact fun _ _ _ _ => TableM.add_unnamed_goesBack rfl

end DeclareM

/-- The objects and the distinct types of a lowered program go back to its declarations, and no report of
lowering tells of a type that contains itself. -/
theorem LoweredProgram.ofProgram_placed {file : Option String} {fuel : Nat} {program : Surface.Program}
    {lowered : LoweredProgram} (run : ofProgram file fuel program = .ok lowered) :
    lowered.table.GoesBack file program.types ∧
      ∀ diagnostic ∈ lowered.diagnostics, diagnostic.code ≠ some .unresolvableRecursion := by
  rw [ofProgram_eq] at run
  cases lowers : DeclareM.lowerProgram file fuel program {} with
  | error fault declarations =>
      rw [lowers] at run
      cases run
  | ok found declarations =>
      rw [lowers] at run
      obtain rfl := Except.ok.inj run
      have noTypes (id : TypeId) : ({} : TypeTable).get? id = none := by simp [TypeTable.get?, TypeTable.cell?]
      have placed := (DeclareM.lowerProgram_placed file fuel program).of_ok lowers
        ⟨fun id type found => by simp [noTypes] at found, by simp⟩
      exact ⟨placed.table, placed.reports⟩

end LifecycleHooks

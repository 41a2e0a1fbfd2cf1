import LifecycleHooks.Proofs.Lifting.FoundedVerdicts
import LifecycleHooks.Proofs.Lifting.ListedCycles
import LifecycleHooks.Proofs.Program.Inquiries
import LifecycleHooks.Proofs.Program.Placement
import LifecycleHooks.Proofs.Program.Soundness

/-!
# Where types without a finite structure are reported

A generic object that grows is reported at its declaration.  A cycle of types is reported at
the declaration of the type that a query met first, if that is an object, an instance or a
distinct type.  Each cycle has such a type, since an array or a tuple is spelled with its
parts; but a query may meet an array or a tuple first, and then the report has no place.
-/

namespace LifecycleHooks

open Attempt ResolveM TypeTable Resolver

namespace TypeTable

variable {table larger : TypeTable} {file : Option String} {decls : List Surface.TypeDecl} {id head : TypeId}
  {span : Span}

/-- A place is that of the declaration of a type, which has its name. -/
def DeclaredIn (table : TypeTable) (file : Option String) (decls : List Surface.TypeDecl) (id : TypeId)
    (span : Span) : Prop :=
  ∃ decl ∈ decls, table.ownName id = .ok decl.name ∧ span = decl.place.toSpan file

/-- Further types of the shapes in use bring no further declarations. -/
theorem GoesBack.unfolds (goesBack : table.GoesBack file decls) (unfolds : table.Unfolds larger) :
    larger.GoesBack file decls := by
  intro id type found origin isOrigin
  have named : type.isStructural = false := by cases type <;> first | rfl | cases isOrigin
  have declared := declared?_eq_some.mpr ⟨found, named⟩
  rw [unfolds.declared?_eq] at declared
  exact goesBack id type (declared?_eq_some.mp declared).1 origin isOrigin

/-- The name and the place of an object, an instance or a distinct type are kept with an object or a
distinct type. -/
theorem origin_of_head (isHead : table.head? id = .ok (some head)) (placed : table.declaredAt id = .ok span) :
    ∃ name owner type, table.get? owner = some type ∧ type.origin? = some (name, span) ∧ table.ownName id = .ok name := by
  unfold head? at isHead
  unfold declaredAt at placed
  unfold ownName
  cases got : table.get id with
  | error fault =>
      rw [got] at isHead
      cases isHead
  | ok type =>
      rw [got, ok_bind] at isHead placed
      rw [ok_bind]
      cases type with
      | object declared =>
          obtain rfl := Except.ok.inj placed
          exact ⟨_, id, _, get_eq_ok.mp got, rfl, rfl⟩
      | distinct name underlying place =>
          obtain rfl := Except.ok.inj placed
          exact ⟨_, id, _, get_eq_ok.mp got, rfl, rfl⟩
      | applied other args =>
          dsimp only at placed ⊢
          cases gotHead : table.get other with
          | error fault =>
              rw [gotHead] at placed
              cases placed
          | ok type =>
              rw [gotHead, ok_bind] at placed
              rw [ok_bind]
              cases type with
              | object declared =>
                  obtain rfl := Except.ok.inj placed
                  exact ⟨_, other, _, get_eq_ok.mp gotHead, rfl, rfl⟩
              | _ => cases placed
      | _ => cases isHead

/-- The place of an object, an instance or a distinct type is that of its declaration. -/
theorem GoesBack.declaredIn (goesBack : table.GoesBack file decls) (isHead : table.head? id = .ok (some head))
    (placed : table.declaredAt id = .ok span) : table.DeclaredIn file decls id span := by
  obtain ⟨name, owner, type, found, isOrigin, named⟩ := origin_of_head isHead placed
  obtain ⟨decl, isDecl, same⟩ := goesBack owner type found _ isOrigin
  obtain ⟨rfl, rfl⟩ := Prod.mk.inj same
  exact ⟨decl, isDecl, named, rfl⟩

/-- Any other type has no place. -/
theorem declaredAt_of_structural (structural : table.head? id = .ok none) (placed : table.declaredAt id = .ok span) :
    span = {} := by
  unfold head? at structural
  unfold declaredAt at placed
  cases got : table.get id with
  | error fault =>
      rw [got] at structural
      cases structural
  | ok type =>
      rw [got, ok_bind] at structural placed
      cases type with
      | object | distinct | applied => cases structural
      | _ => exact (Except.ok.inj placed).symm

/-- A type without a declaration is spelled with what it contains by value. -/
theorem WellFormed.depth_of_directly {part : TypeTree} (wellFormed : table.WellFormed)
    (structural : table.head? id = .ok none) (directly : table.ContainsDirectly (table.tree id) part) :
    part.depth < (table.tree id).depth := by
  obtain ⟨encloses, isPart⟩ := directly
  unfold head? at structural
  cases got : table.get id with
  | error fault =>
      rw [got] at structural
      cases structural
  | ok type =>
      rw [got, ok_bind] at structural
      have found := get_eq_ok.mp got
      rw [wellFormed.tree_eq found] at encloses isPart ⊢
      cases type with
      | object | distinct | applied => cases structural
      | scalar | void | unknown =>
          simp [TypeDef.label, constituentTrees, declared?_eq_some.mpr ⟨found, rfl⟩] at isPart
      | typevar => cases isPart
      | wrap => cases encloses
      | array | tuple => exact TypeTree.depth_le.mp le_rfl part isPart

/-- Among types that contain each other, one goes back to a declaration. -/
theorem ListsTogether.declared {members : List TypeId} (lists : table.ListsTogether members) (wellFormed : table.WellFormed)
    (has : ∀ member ∈ members, table.Has member) (isMember : id ∈ members) :
    ∃ other ∈ members, ∃ head, table.head? other = .ok (some head) := by
  by_contra none
  push Not at none
  have structural : ∀ member ∈ members, table.head? member = .ok Option.none := by
    intro member inside
    obtain ⟨type, found⟩ := (has member inside).exists
    obtain ⟨head, answers⟩ := head?_answers found
    cases head with
    | none => exact answers
    | some head => exact absurd answers (none member inside head)
  -- Without declarations, containment leads to shallower types only.
  have shrinks {id other : TypeId} (inside : id ∈ members)
      (path : Relation.TransGen (fun id other => other ∈ members ∧ table.ContainsDirectly (table.tree id) (table.tree other)) id other) :
      (table.tree other).depth < (table.tree id).depth := by
    induction path using Relation.TransGen.head_induction_on with
    | single step => exact wellFormed.depth_of_directly (structural _ inside) step.2
    | head step _ ih => exact (ih step.1).trans (wellFormed.depth_of_directly (structural _ inside) step.2)
  exact (shrinks isMember (lists.together id isMember id isMember)).false

end TypeTable

/-- Where a report about declared types stands: at the declaration of the growing object, or of the
type of the cycle that was met first.  If that is an array or a tuple the report has no place,
although another type of the cycle is declared. -/
inductive Report.StandsAt (table : TypeTable) (file : Option String) (decls : List Surface.TypeDecl) :
    Report → Span → Prop
  | growth {head : TypeId} {span : Span} (declared : table.DeclaredIn file decls head span) :
      StandsAt table file decls (.growth head) span
  | declared {id : TypeId} {members : List TypeId} {span : Span} (isMember : id ∈ members)
      (declared : table.DeclaredIn file decls id span) : StandsAt table file decls (.cycle id members) span
  | structural {id other head : TypeId} {members : List TypeId} (isMember : id ∈ members)
      (structural : table.head? id = .ok none) (isOther : other ∈ members)
      (declared : table.head? other = .ok (some head)) : StandsAt table file decls (.cycle id members) {}

namespace Report

variable {table : TypeTable} {file : Option String} {decls : List Surface.TypeDecl} {span : Span}

theorem standsAt_growth {head : TypeId} (goesBack : table.GoesBack file decls) (isObject : table.IsObject head)
    (placed : table.declaredAt head = .ok span) : StandsAt table file decls (.growth head) span := by
  obtain ⟨object, found⟩ := isObject
  have isHead : table.head? head = .ok (some head) := by
    rw [head?, get_eq_ok.mpr found]
    rfl
  exact .growth (goesBack.declaredIn isHead placed)

theorem standsAt_cycle {id : TypeId} {members : List TypeId} (wellFormed : table.WellFormed)
    (goesBack : table.GoesBack file decls) (lists : table.ListsTogether members)
    (has : ∀ member ∈ members, table.Has member) (isMember : id ∈ members)
    (placed : table.declaredAt id = .ok span) : StandsAt table file decls (.cycle id members) span := by
  obtain ⟨type, found⟩ := (has id isMember).exists
  obtain ⟨head, answers⟩ := head?_answers found
  cases head with
  | some head => exact .declared isMember (goesBack.declaredIn answers placed)
  | none =>
      obtain ⟨other, isOther, head, declared⟩ := lists.declared wellFormed has isMember
      rw [declaredAt_of_structural answers placed]
      exact .structural isMember answers isOther declared

end Report

namespace ProgramAnalysis

variable {file : Option String} {fuel : Nat} {policy : ContextPolicy} {source : String} {surface : Surface.Program}
  {program : ProgramAnalysis} {diagnostic : Diagnostic}

/-- Types without a finite structure are reported by the resolver only. -/
theorem Steps.reports {binder : Binder} {before : Resolver} {progress : Progress}
    (steps : Steps file fuel policy surface program binder before progress) (sound : program.lowered.Sound)
    (tells : diagnostic.code = some .unresolvableRecursion) (member : diagnostic ∈ program.diagnostics) :
    diagnostic ∈ program.resolver.diagnostics := by
  rw [steps.diagnostics] at member
  refine (ResolveM.analyzeProcedures_reports steps.analyzes tells member).resolve_left fun earlier => ?_
  rcases List.mem_append.mp earlier with lowering | binding
  · exact (LoweredProgram.ofProgram_placed steps.lowers).2 diagnostic lowering tells
  · obtain ⟨other, binds, -, codes⟩ := Binder.bindAll_codes sound.proper.toRegular sound.hooks
    obtain ⟨-, rfl⟩ := EStateM.Result.ok.inj (binds.symm.trans steps.binds)
    obtain ⟨code, ofBinding, isCode⟩ := codes diagnostic binding
    obtain rfl := Option.some.inj (isCode.symm.trans tells)
    simp [Code.ofBinding] at ofBinding

/-- Every report of a type without a finite structure in an analysis tells of a growing object or of a
cycle of types that contain each other.  It stands at the declaration of the object, or at that of the
type of the cycle that was met first, if that is an object, an instance or a distinct type. -/
theorem recursion_reported_at (analyzed : analyze file fuel policy source = .ok (.analyzed program)) :
    ∃ surface, Surface.parse source = .ok surface ∧ ∀ diagnostic ∈ program.diagnostics,
      diagnostic.code = some .unresolvableRecursion → ∃ report, Report.Worded program.resolver.table report diagnostic ∧
        report.Stands program.resolver ∧
        (∀ id members, report = .cycle id members → program.resolver.table.ListsTogether members) ∧
        report.StandsAt program.resolver.table file surface.types diagnostic.span := by
  obtain ⟨surface, parsed, run⟩ := analyze_eq_analyzed analyzed
  obtain ⟨binder, before, progress, steps⟩ := ofProgram_eq_ok.mp run
  have sound := LoweredProgram.ofProgram_sound file fuel (Surface.parse_noStray parsed)
  rw [steps.lowers] at sound
  refine ⟨surface, parsed, fun diagnostic member tells => ?_⟩
  have regular := sound.proper.toRegular
  let fresh : Resolver := { table := program.lowered.table }
  have starts : fresh.Intact := ⟨regular, by simp [fresh], by simp [fresh]⟩
  obtain ⟨intact, reports, booked⟩ := steps.relates (accounted_leadsQueries _) ⟨starts, [], .nil, by simp, by simp, .nil⟩
  have ordered := steps.relates (ordered_leadsQueries _) ⟨rfl, by simp⟩
  obtain ⟨founded, -⟩ := steps.relates (founded_leadsQueries _) ⟨fresh_founded regular, rfl⟩
  obtain ⟨-, unfolds⟩ := steps.relates (intact_leadsQueries _) starts
  have goesBack := (LoweredProgram.ofProgram_placed steps.lowers).1.unfolds unfolds
  obtain ⟨report, isReport, worded⟩ := TypeTree.exists_of_mem_forall₂ booked.told diagnostic (steps.reports sound tells member)
  have lists (id : TypeId) (members : List TypeId) (isCycle : report = .cycle id members) :
      program.resolver.table.ListsTogether members := by
    subst isCycle
    exact (ordered.listed _ (booked.stand _ isReport)).listsTogether intact
  refine ⟨report, worded, booked.stand report isReport, lists, ?_⟩
  cases worded with
  | @growth head name span spelled placed =>
      obtain ⟨⟨object, found, -⟩, -⟩ := founded.founded head (booked.stand _ isReport)
      exact Report.standsAt_growth goesBack ⟨object, found⟩ placed
  | @cycle id members names span spelled placed =>
      have isCycle : (id, members) ∈ program.resolver.cycles := booked.stand _ isReport
      obtain ⟨more, cycles, own⟩ := (steps.relates (extends_leadsQueries _)).cycles
      obtain ⟨isMember, -⟩ := own (id, members) (by simpa [cycles] using isCycle)
      exact Report.standsAt_cycle intact.regular.toWellFormed goesBack (lists id members rfl) (intact.cycles _ isCycle)
        isMember placed

/-- The declaration of a type with an array of rows. -/
def rowsText (name : String) : String := "type " ++ name ++ " = object \x7b rows: array[3, Row] \x7d\n"

/-- What the declaration is read as on a line of its own. -/
def rowsDecl (line : Nat) (name : String) : Surface.TypeDecl :=
  let column := 18 + name.length
  let row : Surface.TypeExpr := .named ⟨line, column + 15⟩ "Row" []
  .object ⟨⟨line, 1⟩, name, [], none, [⟨⟨line, column⟩, "rows", .array ⟨line, column + 6⟩ 3 row⟩]⟩

/-- Rows that hold rows, and a grid of them. -/
def rowFirst : Surface.Program := ⟨[rowsDecl 1 "Row", rowsDecl 2 "Grid"], []⟩

theorem parse_rowFirst : Surface.parse (rowsText "Row" ++ rowsText "Grid") = .ok rowFirst := by cbv

theorem analyze_rowFirst :
    analyze none 9 .standard (rowsText "Row" ++ rowsText "Grid") = .ok (.analyzed (found none 9 .standard rowFirst)) :=
  analyze_found parse_rowFirst (by decide +kernel)

/-- The rows are met before their array, and reported where they are declared. -/
theorem rowFirst_reported_at : ∃ diagnostic ∈ (found none 9 .standard rowFirst).diagnostics,
    diagnostic.code = some .unresolvableRecursion ∧ diagnostic.span = (⟨1, 1⟩ : Position).toSpan none ∧
      ∃ report : Report, report.StandsAt (found none 9 .standard rowFirst).resolver.table none rowFirst.types diagnostic.span := by
  have told : ∃ diagnostic ∈ (found none 9 .standard rowFirst).diagnostics,
      diagnostic.code = some .unresolvableRecursion ∧ diagnostic.span = (⟨1, 1⟩ : Position).toSpan none := by
    decide +kernel
  obtain ⟨diagnostic, member, tells, place⟩ := told
  obtain ⟨surface, parsed, reported⟩ := recursion_reported_at analyze_rowFirst
  obtain rfl := Except.ok.inj (parse_rowFirst.symm.trans parsed)
  obtain ⟨report, -, -, -, stands⟩ := reported diagnostic member tells
  exact ⟨diagnostic, member, tells, place, report, stands⟩

/-- Every report of a type without a finite structure would stand at a declaration. -/
def RecursionAtDeclarations : Prop :=
  ∀ (file : Option String) (fuel : Nat) (policy : ContextPolicy) (source : String) (program : ProgramAnalysis),
    analyze file fuel policy source = .ok (.analyzed program) →
    ∃ surface, Surface.parse source = .ok surface ∧ ∀ diagnostic ∈ program.diagnostics,
      diagnostic.code = some .unresolvableRecursion → ∃ decl ∈ surface.types, diagnostic.span = decl.place.toSpan file

/-- The same types, but the grid meets the array of rows before the rows. -/
def gridFirst : Surface.Program := ⟨[rowsDecl 1 "Grid", rowsDecl 2 "Row"], []⟩

theorem not_recursionAtDeclarations : ¬ RecursionAtDeclarations := by
  intro always
  have parsed : Surface.parse (rowsText "Grid" ++ rowsText "Row") = .ok gridFirst := by cbv
  have told : ∃ diagnostic ∈ (found none 9 .standard gridFirst).diagnostics,
      diagnostic.code = some .unresolvableRecursion ∧ diagnostic.span = {} := by decide +kernel
  obtain ⟨diagnostic, member, tells, unplaced⟩ := told
  obtain ⟨_, -, placed⟩ := always none 9 .standard _ _ (analyze_found parsed (by decide +kernel))
  obtain ⟨decl, -, place⟩ := placed diagnostic member tells
  cases unplaced.symm.trans place

end ProgramAnalysis
end LifecycleHooks

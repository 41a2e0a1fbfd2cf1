import LifecycleHooks.Proofs.Program.Keeping
import LifecycleHooks.Proofs.Surface.Names
import LifecycleHooks.Proofs.Types.Legibility

/-!
# Legible programs

The characters that places are written with occur in no name of the language.  The types and
the fields of a program that was read have names, and fields are declared once, so the table of
a lowered program is legible.
-/

namespace LifecycleHooks

open Attempt TypeTable

theorem Surface.IsName.plain {text : String} (isName : IsName text) : IsPlain text := by
  intro mark isMark inside
  have part := isName.characters mark inside
  have noPart : ∀ mark ∈ placeMarks, isNamePart mark = false := by simp [placeMarks, isNamePart]
  rw [noPart mark isMark] at part
  cases part

theorem Body.IsFor.isLegible {decl : Surface.ObjectDecl} {body : Body} (isFor : body.IsFor decl)
    (isNamed : decl.IsNamed) : body.IsLegible where
  plain field isField := by
    obtain ⟨member, isMember, same⟩ := isFor.members field isField
    exact same ▸ (isNamed.fields member isMember).plain
  distinct := isFor.distinct

namespace DeclareM

theorem report_legible (file : Option String) (code : Code) (place : Position) (message : String) :
    (report file code place message).Preserves (Lasts fun declarations => declarations.table.Legible) :=
  leads_modify fun _ legible => legible

theorem name_legible (spelling : String) (id : TypeId) :
    (name spelling id).Preserves (Lasts fun declarations => declarations.table.Legible) :=
  leads_modify fun _ legible => legible

theorem legible_keptAlong : KeptAlong (Lasts Legible) (Lasts fun declarations => declarations.table.Legible) where
  interns _ := TableM.intern_legible
  ints := TableM.builtIn_legible TableM.int_isBuiltIn (TypeDef.isLegible_of_named rfl (by decide) (by simp))
  bools := TableM.builtIn_legible TableM.bool_isBuiltIn (TypeDef.isLegible_of_named rfl (by decide) (by simp))
  voids := TableM.builtIn_legible TableM.void_isBuiltIn (TypeDef.isLegible_of_unnamed rfl)
  unknowns := TableM.builtIn_legible TableM.unknown_isBuiltIn (TypeDef.isLegible_of_unnamed rfl)
  bodies := TableM.body_legible
  tables _ _ kept legible := kept legible
  reports file code place message _ := report_legible file code place message

theorem lowerProgram_legible (file : Option String) (fuel : Nat) {program : Surface.Program}
    (isNamed : program.IsNamed) :
    (lowerProgram file fuel program).Preserves (Lasts fun declarations => declarations.table.Legible) := by
  apply lowerProgram_preserves legible_keptAlong name_legible fuel
  · intro decl isDecl
    have named := isNamed.objects decl isDecl
    exact TableM.declareObject_legible named.name.plain (fun param isParam => (named.typeParams param isParam).plain) _
  · intro decl underlying isDecl
    exact TableM.add_legible (TypeDef.isLegible_of_named rfl (isNamed.distincts decl isDecl).plain (by simp))
  · intro decl isDecl id contents isFor
    exact TableM.defineObject_legible (isFor.isLegible (isNamed.objects decl isDecl)) id
  · intro proc isProc param isParam
    have plain := (isNamed.typeParams proc isProc param isParam).plain
    exact TableM.add_legible (TypeDef.isLegible_of_named rfl plain (by simp))

end DeclareM

/-- The table of a lowered program is legible. -/
theorem LoweredProgram.ofProgram_legible {file : Option String} {fuel : Nat} {program : Surface.Program}
    {lowered : LoweredProgram} (isNamed : program.IsNamed) (run : ofProgram file fuel program = .ok lowered) :
    lowered.table.Legible := by
  rw [ofProgram_eq] at run
  cases lowers : DeclareM.lowerProgram file fuel program {} with
  | error fault declarations =>
      rw [lowers] at run
      cases run
  | ok found declarations =>
      rw [lowers] at run
      obtain rfl := Except.ok.inj run
      exact (DeclareM.lowerProgram_legible file fuel isNamed).of_ok lowers legible_empty

end LifecycleHooks

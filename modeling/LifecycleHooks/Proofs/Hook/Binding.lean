import LifecycleHooks.Proofs.Hook.Signatures
import LifecycleHooks.Proofs.Types.Building

/-!
# What is bound

Binding never fails.  A declaration is bound when its signature is valid and no earlier
declaration with a valid signature has its type and operation; any other declaration gives
one diagnostic and changes no entry.
-/

namespace LifecycleHooks

/-- What becomes of a declaration. -/
inductive Ruling where
  | bound (entry : HookEntry)
  | rejected (code : Code)

/-- The codes of what is reported while hooks are bound. -/
def Code.ofBinding : List Code :=
  [.duplicateBinding, .invalidSignature, .receiverNotNominal, .conflictingIndirection]

namespace HookDecl

/-- No declaration with a valid signature is for this type and operation. -/
def Free (table : TypeTable) (decls : List HookDecl) (target : TypeId) (kind : OpKind) : Prop :=
  ∀ decl ∈ decls, ∀ entry, decl.Declares table entry → entry.target = target → entry.kind ≠ kind

/-- The first declaration with a valid signature for this type and operation declares the
entry. -/
def IsFirst (table : TypeTable) (decls : List HookDecl) (target : TypeId) (kind : OpKind)
    (entry : HookEntry) : Prop :=
  ∃ before decl after, decls = before ++ decl :: after ∧ Free table before target kind ∧
    decl.Declares table entry ∧ entry.target = target ∧ entry.kind = kind

/-- The ruling on a declaration that comes after others. -/
inductive Ruled (table : TypeTable) (earlier : List HookDecl) (decl : HookDecl) : Ruling → Prop where
  | bound {entry : HookEntry} (declares : decl.Declares table entry)
      (free : Free table earlier entry.target entry.kind) : Ruled table earlier decl (.bound entry)
  | signature (invalid : ∀ entry, ¬ decl.Declares table entry) (receives : ¬ decl.LacksReceiver table) :
      Ruled table earlier decl (.rejected .invalidSignature)
  | receiver (lacks : decl.LacksReceiver table) :
      Ruled table earlier decl (.rejected .receiverNotNominal)
  | indirection {entry existing : HookEntry} (declares : decl.Declares table entry)
      (isFirst : IsFirst table earlier entry.target entry.kind existing)
      (isDeepCopy : entry.kind = .deepCopy) (differs : existing.indirection ≠ entry.indirection) :
      Ruled table earlier decl (.rejected .conflictingIndirection)
  | duplicate {entry existing : HookEntry} (declares : decl.Declares table entry)
      (isFirst : IsFirst table earlier entry.target entry.kind existing)
      (same : entry.kind = .deepCopy → existing.indirection = entry.indirection) :
      Ruled table earlier decl (.rejected .duplicateBinding)

/-- A diagnostic for a rejected declaration. -/
structure Reports (decl : HookDecl) (code : Code) (diagnostic : Diagnostic) : Prop where
  phase : diagnostic.phase = .bind
  code : diagnostic.code = some code
  span : diagnostic.span = decl.span

/-- The declarations after the earlier ones bind these entries, and the others give these
diagnostics, one each and in order. -/
inductive BoundInOrder (table : TypeTable) :
    (earlier decls : List HookDecl) → List HookEntry → List Diagnostic → Prop where
  | nil {earlier : List HookDecl} : BoundInOrder table earlier [] [] []
  | bound {earlier decls : List HookDecl} {decl : HookDecl} {entry : HookEntry}
      {entries : List HookEntry} {diagnostics : List Diagnostic}
      (ruled : decl.Ruled table earlier (.bound entry))
      (rest : BoundInOrder table (earlier ++ [decl]) decls entries diagnostics) :
      BoundInOrder table earlier (decl :: decls) (entry :: entries) diagnostics
  | rejected {earlier decls : List HookDecl} {decl : HookDecl} {code : Code}
      {entries : List HookEntry} {diagnostic : Diagnostic} {diagnostics : List Diagnostic}
      (ruled : decl.Ruled table earlier (.rejected code)) (reports : decl.Reports code diagnostic)
      (rest : BoundInOrder table (earlier ++ [decl]) decls entries diagnostics) :
      BoundInOrder table earlier (decl :: decls) entries (diagnostic :: diagnostics)

variable {table : TypeTable} {decls earlier : List HookDecl} {decl : HookDecl} {target : TypeId}
  {kind : OpKind} {entry existing : HookEntry}

theorem Ruled.code_mem {code : Code} (ruled : decl.Ruled table earlier (.rejected code)) : code ∈ Code.ofBinding := by
  cases ruled <;> simp [Code.ofBinding]

theorem BoundInOrder.codes {entries : List HookEntry} {diagnostics : List Diagnostic}
    (inOrder : BoundInOrder table earlier decls entries diagnostics) :
    ∀ diagnostic ∈ diagnostics, ∃ code ∈ Code.ofBinding, diagnostic.code = some code := by
  induction inOrder with
  | nil => simp
  | bound ruled rest ih => exact ih
  | rejected ruled reports rest ih => exact List.forall_mem_cons.mpr ⟨⟨_, ruled.code_mem, reports.code⟩, ih⟩

theorem free_append : Free table (decls ++ earlier) target kind ↔
    Free table decls target kind ∧ Free table earlier target kind :=
  List.forall_mem_append

theorem IsFirst.not_free (isFirst : IsFirst table decls target kind entry) :
    ¬ Free table decls target kind := by
  obtain ⟨before, decl, after, rfl, -, declares, isTarget, isKind⟩ := isFirst
  exact fun free => free decl (by simp) entry declares isTarget isKind

theorem IsFirst.append (isFirst : IsFirst table decls target kind entry) (others : List HookDecl) :
    IsFirst table (decls ++ others) target kind entry := by
  obtain ⟨before, decl, after, rfl, rest⟩ := isFirst
  exact ⟨before, decl, after ++ others, by simp, rest⟩

/-- A declaration added at the end is the first one where there was none. -/
theorem isFirst_concat : IsFirst table (decls ++ [decl]) target kind entry ↔
    IsFirst table decls target kind entry ∨
      Free table decls target kind ∧ decl.Declares table entry ∧ entry.target = target ∧ entry.kind = kind := by
  constructor
  · rintro ⟨before, other, after, split, free, declares⟩
    rcases List.eq_nil_or_concat after with rfl | ⟨after, last, rfl⟩
    · obtain ⟨rfl, same⟩ := List.append_inj' split rfl
      obtain rfl := List.head_eq_of_cons_eq same
      exact .inr ⟨free, declares⟩
    · refine .inl ⟨before, other, after, ?_, free, declares⟩
      have split' : decls ++ [decl] = (before ++ other :: after) ++ [last] := by simpa using split
      exact (List.append_inj' split' rfl).1
  · rintro (isFirst | ⟨free, declares⟩)
    · exact isFirst.append [decl]
    · exact ⟨decls, decl, [], rfl, free, declares⟩

theorem IsFirst.unique {other : HookEntry} (first : IsFirst table decls target kind entry)
    (second : IsFirst table decls target kind other) : entry = other := by
  induction decls using List.reverseRecOn with
  | nil => simp [IsFirst] at first
  | append_singleton decls decl ih =>
      rcases isFirst_concat.mp first with earlier | ⟨free, declares, -⟩
      · rcases isFirst_concat.mp second with earlier' | ⟨free, -⟩
        · exact ih earlier earlier'
        · exact absurd free earlier.not_free
      · rcases isFirst_concat.mp second with earlier' | ⟨-, declares', -⟩
        · exact absurd free earlier'.not_free
        · exact declares.unique declares'

/-- There is one ruling on each declaration. -/
theorem Ruled.unique {ruling other : Ruling} (first : decl.Ruled table earlier ruling)
    (second : decl.Ruled table earlier other) : ruling = other := by
  cases first <;> cases second <;>
    grind [Declares.unique, IsFirst.unique, IsFirst.not_free, LacksReceiver.invalid]

theorem exists_isFirst (taken : ¬ Free table decls target kind) :
    ∃ entry, IsFirst table decls target kind entry := by
  induction decls using List.reverseRecOn with
  | nil => exact absurd (by simp [Free]) taken
  | append_singleton decls decl ih =>
      by_cases free : Free table decls target kind
      · have last : ¬ Free table [decl] target kind := fun last => taken (free_append.mpr ⟨free, last⟩)
        unfold Free at last
        push Not at last
        obtain ⟨other, member, entry, declares, isTarget, isKind⟩ := last
        obtain rfl := List.mem_singleton.mp member
        exact ⟨entry, isFirst_concat.mpr (.inr ⟨free, declares, isTarget, isKind⟩)⟩
      · obtain ⟨entry, isFirst⟩ := ih free
        exact ⟨entry, isFirst.append [decl]⟩

theorem Declares.has (wellFormed : table.WellFormed) (declares : decl.Declares table entry) :
    table.Has entry.target :=
  have ⟨_, _, _, targets⟩ := declares.signature
  targets.has wellFormed

end HookDecl

namespace Binder

open HookCheck HookDecl Attempt

variable {table : TypeTable} {earlier decls : List HookDecl} {decl : HookDecl}

/-- A registry that holds the first declaration for each type and operation. -/
def HoldsFirst (table : TypeTable) (decls : List HookDecl) (registry : Registry) : Prop :=
  ∀ target kind entry, registry.lookup target kind = some entry ↔ IsFirst table decls target kind entry

theorem HoldsFirst.lookup_eq_none {registry : Registry} (holds : HoldsFirst table earlier registry)
    {target : TypeId} {kind : OpKind} : registry.lookup target kind = none ↔ Free table earlier target kind := by
  constructor
  · intro missing
    by_contra taken
    obtain ⟨entry, isFirst⟩ := exists_isFirst taken
    cases missing.symm.trans ((holds target kind entry).mpr isFirst)
  · intro free
    cases found : registry.lookup target kind with
    | none => rfl
    | some entry => exact absurd free ((holds target kind entry).mp found).not_free

/-- A rejection that can be told. -/
def Told (table : TypeTable) (rejection : Rejection) : Prop :=
  (∃ text, rejection.message table = .ok text) ∧ ∃ notes, rejection.notes table = .ok notes

theorem Refused.ruled {rejection : Rejection} (refused : decl.Refused table rejection) :
    decl.Ruled table earlier (.rejected rejection.code) ∧ Told table rejection := by
  refine ⟨?_, refused.spelled, [], refused.unnoted⟩
  rcases refused.code with ⟨lacks, code⟩ | ⟨receives, code⟩
  · rw [code]
    exact .receiver lacks
  · rw [code]
    exact .signature refused.invalid receives

/-- The check of a declaration comes to the ruling on it. -/
theorem checked_settles (regular : table.Regular) (isOver : decl.IsOver table)
    {registry : Registry} (holds : HoldsFirst table earlier registry) :
    Settles (do let entry ← decl.check table; checkFree registry entry; return entry)
      (fun entry => decl.Ruled table earlier (.bound entry))
      (fun rejection => decl.Ruled table earlier (.rejected rejection.code) ∧ Told table rejection) := by
  have checks := (check_settles regular isOver).mono (fun _ declares => declares) fun _ refused =>
    (Refused.ruled refused : decl.Ruled table earlier _ ∧ _)
  refine checks.bind fun entry declares => ?_
  have tells (rejection : String → Except Fault String) (each : ∀ spelled, ∃ text, rejection spelled = .ok text) :
      ∃ text, (table.spell entry.target >>= rejection) = .ok text :=
    spelled_bind regular (declares.has regular.toWellFormed) each
  unfold checkFree
  cases found : registry.lookup entry.target entry.kind with
  | none => exact settles_pure (.bound declares (holds.lookup_eq_none.mp found))
  | some existing =>
      have isFirst := (holds _ _ _).mp found
      obtain ⟨spelled, answers⟩ :=
        TypeTable.spell_answers regular.toWellFormed regular.paramsKnown (declares.has regular.toWellFormed)
      dsimp only
      split
      · rename_i differs
        refine settles_throw_bind ⟨.indirection declares isFirst differs.1 differs.2, ?_, ?_⟩
        · exact TypeTable.bind_answers answers ⟨_, rfl⟩
        · exact TypeTable.bind_answers answers ⟨_, rfl⟩
      · rename_i agrees
        refine settles_throw_bind ⟨.duplicate declares isFirst fun isDeepCopy => ?_, ?_, ?_⟩
        · exact not_not.mp fun differs => agrees ⟨isDeepCopy, differs⟩
        · exact TypeTable.bind_answers answers ⟨_, rfl⟩
        · exact TypeTable.bind_answers answers ⟨_, rfl⟩

/-- One declaration is bound or rejected as it is ruled. -/
theorem bind_ruled (regular : table.Regular) (isOver : decl.IsOver table) {registry : Registry}
    (holds : HoldsFirst table earlier registry) (isOpen : registry.frozen = false) (reported : List Diagnostic) :
    (∃ entry, decl.Ruled table earlier (.bound entry) ∧
      bind table decl { registry := registry, diagnostics := reported } = .ok (some entry)
        { registry := { registry with entries := registry.entries ++ [entry] }, diagnostics := reported }) ∨
    ∃ code diagnostic, decl.Ruled table earlier (.rejected code) ∧ decl.Reports code diagnostic ∧
      bind table decl { registry := registry, diagnostics := reported } = .ok none
        { registry := registry, diagnostics := reported ++ [diagnostic] } := by
  unfold bind
  rw [get_bind_run]
  rcases (checked_settles regular isOver holds).cases with ⟨entry, run, ruled⟩ | ⟨rejection, run, ruled, told⟩
  · refine .inl ⟨entry, ruled, ?_⟩
    obtain ⟨declares, free⟩ : decl.Declares table entry ∧ Free table earlier entry.target entry.kind := by
      cases ruled with
      | bound declares free => exact ⟨declares, free⟩
    have binds : registry.bind entry = .ok { registry with entries := registry.entries ++ [entry] } := by
      simp [Registry.bind, isOpen, holds.lookup_eq_none.mpr free]
    exact bind_eq_ok.mpr ⟨.ok entry, _, ofExcept_eq_ok.mpr ⟨run, rfl⟩,
      bind_eq_ok.mpr ⟨_, _, ofExcept_eq_ok.mpr ⟨binds, rfl⟩, rfl⟩⟩
  · obtain ⟨⟨text, message⟩, notes, noted⟩ := told
    have diagnosed : rejection.diagnostic table decl.span = .ok
        { phase := .bind, code := some rejection.code, message := text, span := decl.span, notes := notes } := by
      rw [Rejection.diagnostic, message, noted]
      rfl
    refine .inr ⟨rejection.code, _, ruled, ?_, bind_eq_ok.mpr ⟨.error rejection, _, ofExcept_eq_ok.mpr ⟨run, rfl⟩,
      bind_eq_ok.mpr ⟨_, _, ofExcept_eq_ok.mpr ⟨diagnosed, rfl⟩, rfl⟩⟩⟩
    exact ⟨rfl, rfl, rfl⟩

theorem HoldsFirst.bound {registry : Registry} {entry : HookEntry} (holds : HoldsFirst table earlier registry)
    (ruled : decl.Ruled table earlier (.bound entry)) :
    HoldsFirst table (earlier ++ [decl]) { registry with entries := registry.entries ++ [entry] } := by
  cases ruled with
  | bound declares free =>
      intro target kind other
      have last : [entry].find? (fun entry => entry.target = target && entry.kind = kind) = some other ↔
          entry = other ∧ entry.target = target ∧ entry.kind = kind := by
        by_cases isKey : entry.target = target ∧ entry.kind = kind
        · simp [isKey]
        · rw [List.find?_eq_none.mpr (by simpa using isKey)]
          exact ⟨nofun, fun key => absurd key.2 isKey⟩
      rw [Registry.lookup, List.find?_append, Option.or_eq_some_iff, last, isFirst_concat]
      change registry.lookup target kind = some other ∨ registry.lookup target kind = none ∧ _ ↔ _
      rw [holds target kind other, holds.lookup_eq_none]
      refine or_congr_right (and_congr_right fun _ => ?_)
      constructor
      · rintro ⟨rfl, isKey⟩
        exact ⟨declares, isKey⟩
      · rintro ⟨declares', isKey⟩
        obtain rfl := declares.unique declares'
        exact ⟨rfl, isKey⟩

theorem HoldsFirst.rejected {registry : Registry} {code : Code} (holds : HoldsFirst table earlier registry)
    (ruled : decl.Ruled table earlier (.rejected code)) : HoldsFirst table (earlier ++ [decl]) registry := by
  intro target kind other
  rw [holds, isFirst_concat]
  refine (or_iff_left ?_).symm
  rintro ⟨free, declares, rfl, rfl⟩
  cases ruled with
  | signature invalid _ => exact invalid other declares
  | receiver lacks => exact lacks.invalid other declares
  | indirection declares' isFirst _ _ | duplicate declares' isFirst _ =>
      obtain rfl := declares.unique declares'
      exact isFirst.not_free free

/-- Every declaration in turn is bound or rejected as it is ruled, and the registry holds the
first for each type and operation. -/
theorem bindEach_ruled (regular : table.Regular) (isOver : ∀ decl ∈ decls, decl.IsOver table)
    (registry : Registry) (reported : List Diagnostic) (holds : HoldsFirst table earlier registry)
    (isOpen : registry.frozen = false) :
    ∃ entries diagnostics, BoundInOrder table earlier decls entries diagnostics ∧
      HoldsFirst table (earlier ++ decls) { registry with entries := registry.entries ++ entries } ∧
      bindEach table decls { registry := registry, diagnostics := reported } =
        .ok () { registry := { registry with entries := registry.entries ++ entries }
                 diagnostics := reported ++ diagnostics } := by
  induction decls generalizing earlier registry reported with
  | nil => exact ⟨[], [], .nil, by simpa using holds, by simp [bindEach]⟩
  | cons decl decls ih =>
      have overRest := fun other member => isOver other (List.mem_cons_of_mem decl member)
      rcases bind_ruled regular (isOver decl List.mem_cons_self) holds isOpen reported with
        ⟨entry, ruled, run⟩ | ⟨code, diagnostic, ruled, reports, run⟩
      · obtain ⟨entries, diagnostics, inOrder, holds, rest⟩ := ih overRest _ reported (holds.bound ruled) isOpen
        refine ⟨entry :: entries, diagnostics, .bound ruled inOrder, by simpa using holds, ?_⟩
        exact bind_eq_ok.mpr ⟨_, _, run, by simpa using rest⟩
      · obtain ⟨entries, diagnostics, inOrder, holds, rest⟩ :=
          ih overRest registry (reported ++ [diagnostic]) (holds.rejected ruled) isOpen
        refine ⟨entries, diagnostic :: diagnostics, .rejected ruled reports inOrder, by simpa using holds, ?_⟩
        exact bind_eq_ok.mpr ⟨_, _, run, by simpa using rest⟩

/-- Binding declarations over the types of a table succeeds.  The registry is closed and holds
the first declaration with a valid signature for each type and operation, in the order of
the declarations, and every other declaration gives its diagnostic. -/
theorem bindAll_binds_first (built : table.Built) (isOver : ∀ decl ∈ decls, decl.IsOver table)
    (reported : List Diagnostic) :
    ∃ entries diagnostics,
      bindAll table decls { diagnostics := reported } = .ok ()
        { registry := { entries := entries, frozen := true }, diagnostics := reported ++ diagnostics } ∧
      BoundInOrder table [] decls entries diagnostics ∧
      (∀ entry, entry ∈ entries ↔ IsFirst table decls entry.target entry.kind entry) ∧
      ∀ target kind entry, Registry.lookup { entries := entries, frozen := true } target kind = some entry ↔
        IsFirst table decls target kind entry := by
  have nothing : HoldsFirst table [] {} := by simp [HoldsFirst, IsFirst, Registry.lookup]
  obtain ⟨entries, diagnostics, inOrder, holds, run⟩ :=
    bindEach_ruled built.regular isOver {} reported nothing rfl
  have accepted := bindEach_accepted ⟨by simp, by simp⟩ (fun _ member => member) run
  rw [List.nil_append] at holds run accepted
  refine ⟨entries, diagnostics, bind_eq_ok.mpr ⟨_, _, run, rfl⟩, inOrder, fun entry => ?_, holds⟩
  rw [← holds]
  exact ⟨accepted.found entry, List.mem_of_find?_eq_some⟩

/-- Lists, with the instances for a type variable and for integers. -/
def listTable : TypeTable :=
  TypeTable.after {} [.object "List" ["T"] {}, .void, .int, .instantiate 1 [2], .instantiate 1 [4],
    .wrap .ref 5, .wrap .ptr 5, .wrap .var 5]

/-- Hooks for lists, some of them at odds with others. -/
def listHooks : List HookDecl :=
  [{ name := "=destroy", impl := "drop", params := [5], result := 3 },
    { name := "=destroy", impl := "dropAgain", params := [1], result := 3 },
    { name := "=destroy", impl := "dropIntegers", params := [6], result := 3 },
    { name := "=destroy", impl := "dropInteger", params := [4], result := 3 },
    { name := "=deepCopy", impl := "clone", params := [7], result := 7 },
    { name := "=deepCopy", impl := "cloneAgain", params := [8], result := 8 },
    { name := "=", impl := "assign", params := [9], result := 3 }]

theorem bindAll_binds_first_lists :
    ∃ entries diagnostics, BoundInOrder listTable [] listHooks entries diagnostics ∧
      entries.map (fun entry => (entry.target, entry.kind, entry.impl)) =
        [(1, .destroy, "drop"), (6, .destroy, "dropIntegers"), (1, .deepCopy, "clone")] ∧
      diagnostics.map Diagnostic.code =
        [some .duplicateBinding, some .receiverNotNominal, some .conflictingIndirection,
          some .invalidSignature] := by
  have built : listTable.Built := TypeTable.Built.empty.after (by decide +kernel)
  obtain ⟨entries, diagnostics, run, inOrder, -, -⟩ :=
    bindAll_binds_first built (show ∀ decl ∈ listHooks, decl.IsOver listTable by decide +kernel) []
  have ends := finish_of_ok run
  refine ⟨entries, diagnostics, inOrder, ?_, ?_⟩
  · have bound : ((bindAll listTable listHooks).finish {}).registry.entries.map
        (fun entry => (entry.target, entry.kind, entry.impl)) =
          [(1, .destroy, "drop"), (6, .destroy, "dropIntegers"), (1, .deepCopy, "clone")] := by
      decide +kernel
    rwa [ends] at bound
  · have told : ((bindAll listTable listHooks).finish {}).diagnostics.map Diagnostic.code =
        [some .duplicateBinding, some .receiverNotNominal, some .conflictingIndirection,
          some .invalidSignature] := by
      decide +kernel
    rwa [ends] at told

end Binder
end LifecycleHooks

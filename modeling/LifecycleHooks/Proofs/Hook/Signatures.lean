import LifecycleHooks.Proofs.Hook.Acceptance
import LifecycleHooks.Proofs.Types.Regular

/-!
# Signatures of hooks

The check of a declared hook ends for every declaration over the types of a table.  It
accepts the declarations with a valid signature, each with the one entry that it declares,
and tells of the others whether the signature or the receiver is at fault.
-/

namespace LifecycleHooks

namespace HookCheck

variable {First Second : Type}

/-- A check that ends, with a result or with a rejection as told. -/
def Settles (check : HookCheck First) (good : First → Prop) (bad : Rejection → Prop) : Prop :=
  match check.run with
  | .ok (.ok result) => good result
  | .ok (.error rejection) => bad rejection
  | .error _ => False

variable {good : First → Prop} {bad : Rejection → Prop}

theorem settles_pure {result : First} (told : good result) : Settles (pure result) good bad := told

theorem settles_throw {rejection : Rejection} (told : bad rejection) :
    Settles (throw rejection : HookCheck First) good bad := told

theorem settles_throw_bind {rejection : Rejection} {next : First → HookCheck Second} {goal : Second → Prop}
    (told : bad rejection) : Settles (throw rejection >>= next) goal bad := told

theorem settles_bind_lift {answer : Except Fault First} {next : First → HookCheck Second} {result : First}
    {goal : Second → Prop} (answers : answer = .ok result) (rest : Settles (next result) goal bad) :
    Settles (liftM answer >>= next) goal bad := by
  subst answer
  exact rest

theorem Settles.bind {check : HookCheck First} {next : First → HookCheck Second}
    {goal : Second → Prop} (first : Settles check good bad)
    (rest : ∀ result, good result → Settles (next result) goal bad) :
    Settles (check >>= next) goal bad := by
  unfold Settles at first
  split at first
  · rename_i result run
    have onwards := rest result first
    unfold Settles at onwards ⊢
    have same : (check >>= next).run = (next result).run := by
      change ExceptT.run (ExceptT.bind check next) = _
      simp only [ExceptT.run, ExceptT.bind, ExceptT.mk] at run ⊢
      rw [run]
      rfl
    rw [same]
    exact onwards
  · rename_i rejection run
    unfold Settles
    have same : (check >>= next).run = .ok (.error rejection) := by
      change ExceptT.run (ExceptT.bind check next) = _
      simp only [ExceptT.run, ExceptT.bind, ExceptT.mk] at run ⊢
      rw [run]
      rfl
    rw [same]
    exact first
  · exact first.elim

theorem Settles.mono {check : HookCheck First} {better : First → Prop} {worse : Rejection → Prop}
    (settles : Settles check good bad) (accepted : ∀ result, good result → better result)
    (rejected : ∀ rejection, bad rejection → worse rejection) : Settles check better worse := by
  unfold Settles at *
  split
  · exact accepted _ (by simp_all)
  · exact rejected _ (by simp_all)
  · simp_all

/-- A check that settles has accepted or has rejected. -/
theorem Settles.cases {check : HookCheck First} (settles : Settles check good bad) :
    (∃ result, check.run = .ok (.ok result) ∧ good result) ∨
      ∃ rejection, check.run = .ok (.error rejection) ∧ bad rejection := by
  unfold Settles at settles
  split at settles
  · exact .inl ⟨_, by assumption, settles⟩
  · exact .inr ⟨_, by assumption, settles⟩
  · exact settles.elim

theorem settles_allM {items : List First} {test : First → HookCheck Bool} {property : First → Prop}
    (each : ∀ item ∈ items, Settles (test item) (fun passes => passes = true ↔ property item) bad) :
    Settles (items.allM test) (fun all => all = true ↔ ∀ item ∈ items, property item) bad := by
  induction items with
  | nil => exact settles_pure (by simp)
  | cons item items ih =>
      rw [List.allM]
      refine (each item List.mem_cons_self).bind fun passes told => ?_
      cases passes with
      | false => exact settles_pure (by simpa using fun property => absurd (told.mpr property) (by simp))
      | true =>
          refine (ih fun other member => each other (List.mem_cons_of_mem _ member)).mono
            (fun all rest => ?_) fun _ told => told
          simp [rest, told.mp rfl]

end HookCheck

theorem OpKind.ofHookName?_eq_some {name : String} {kind : OpKind}
    (named : OpKind.ofHookName? name = some kind) : name = kind.hookName := by
  simpa [eq_comm] using List.find?_some named

namespace TypeTable

/-- The type that a hook for a nominal type is bound to: the generic object of an instance
whose arguments are all type variables, and any other nominal type itself. -/
inductive HookTarget (table : TypeTable) : (receiver target : TypeId) → Prop where
  | generic {receiver head : TypeId} {args : List TypeId}
      (isApplied : table.get? receiver = some (.applied head args))
      (typevars : ∀ arg ∈ args, table.IsTypevar arg) : HookTarget table receiver head
  | itself {receiver : TypeId} {type : TypeDef} (found : table.get? receiver = some type)
      (nominal : type.isNominal = true)
      (concrete : ∀ head args, type = .applied head args → ¬ ∀ arg ∈ args, table.IsTypevar arg) :
      HookTarget table receiver receiver

/-- A type that no hook can be bound to. -/
def NotNominal (table : TypeTable) (id : TypeId) : Prop :=
  ∃ type, table.get? id = some type ∧ type.isNominal = false

variable {table : TypeTable} {receiver target other : TypeId}

theorem HookTarget.unique (first : table.HookTarget receiver target)
    (second : table.HookTarget receiver other) : target = other := by
  cases first with
  | generic isApplied typevars =>
      cases second with
      | generic isApplied' _ =>
          exact (TypeDef.applied.inj (Option.some.inj (isApplied.symm.trans isApplied'))).1
      | itself found _ concrete =>
          exact absurd typevars (concrete _ _ (Option.some.inj (found.symm.trans isApplied)))
  | itself found nominal concrete =>
      cases second with
      | generic isApplied typevars =>
          exact absurd typevars (concrete _ _ (Option.some.inj (found.symm.trans isApplied)))
      | itself _ _ _ => rfl

theorem HookTarget.not_notNominal (targets : table.HookTarget receiver target) :
    ¬ table.NotNominal receiver := by
  rintro ⟨type, found, notNominal⟩
  cases targets with
  | generic isApplied _ =>
      obtain rfl := Option.some.inj (found.symm.trans isApplied)
      cases notNominal
  | itself found' nominal _ =>
      obtain rfl := Option.some.inj (found.symm.trans found')
      cases nominal.symm.trans notNominal

theorem HookTarget.has (wellFormed : table.WellFormed) (targets : table.HookTarget receiver target) :
    table.Has target := by
  cases targets with
  | generic isApplied _ => exact (wellFormed.earlier receiver _ isApplied target (by simp [TypeDef.parts])).1
  | itself found _ _ => exact has_of_get? found

end TypeTable

namespace HookDecl

/-- What a declaration is for: the operation, the indirection of a deep copy and the
receiver.  The parameters lead to the receiver: it is what the first parameter of an
assignment varies, what a destructor takes by value, and what lies behind the reference or
pointer that a deep copy takes and gives back. -/
inductive IsFor (table : TypeTable) (decl : HookDecl) :
    OpKind → Option Indirection → TypeId → Prop where
  | assign {destination source receiver : TypeId} (named : decl.name = "=")
      (params : decl.params = [destination, source])
      (isVar : table.get? destination = some (.wrap .var receiver)) : IsFor table decl .assign none receiver
  | destroy {receiver : TypeId} (named : decl.name = "=destroy") (params : decl.params = [receiver])
      (notVar : ∀ inner, table.get? receiver ≠ some (.wrap .var inner))
      (notLent : ∀ inner, table.get? receiver ≠ some (.wrap .lent inner)) :
      IsFor table decl .destroy none receiver
  | deepCopy {param receiver : TypeId} {wrapper : Wrapper} {indirection : Indirection}
      (named : decl.name = "=deepCopy") (params : decl.params = [param])
      (isWrap : table.get? param = some (.wrap wrapper receiver))
      (isIndirection : wrapper.indirection? = some indirection) (returned : decl.result = param) :
      IsFor table decl .deepCopy (some indirection) receiver

/-- What else the operation asks of a declaration: an assignment takes the value as it is or
lent, and neither an assignment nor a destructor gives a result. -/
def Completes (table : TypeTable) (decl : HookDecl) (receiver : TypeId) : OpKind → Prop
  | .assign => (∃ source, decl.params[1]? = some source ∧
      (source = receiver ∨ table.get? source = some (.wrap .lent receiver))) ∧
        table.get? decl.result = some .void
  | .destroy => table.get? decl.result = some .void
  | .deepCopy => True

/-- A declaration with a valid signature, with the entry that it declares. -/
structure Declares (table : TypeTable) (decl : HookDecl) (entry : HookEntry) : Prop where
  signature : ∃ receiver, decl.IsFor table entry.kind entry.indirection receiver ∧
    decl.Completes table receiver entry.kind ∧ table.HookTarget receiver entry.target
  params : entry.params = decl.params
  result : entry.result = decl.result
  impl : entry.impl = decl.impl
  span : entry.span = decl.span

/-- A declaration for a receiver that is not nominal. -/
def LacksReceiver (table : TypeTable) (decl : HookDecl) : Prop :=
  ∃ kind indirection receiver, decl.IsFor table kind indirection receiver ∧ table.NotNominal receiver

/-- A declaration whose types are all in the table. -/
def IsOver (table : TypeTable) (decl : HookDecl) : Prop :=
  (∀ param ∈ decl.params, table.Has param) ∧ table.Has decl.result

instance (table : TypeTable) (decl : HookDecl) : Decidable (decl.IsOver table) :=
  inferInstanceAs (Decidable ((∀ param ∈ decl.params, (table.get? param).isSome = true) ∧
    (table.get? decl.result).isSome = true))

variable {table : TypeTable} {decl : HookDecl}

theorem IsFor.named {kind : OpKind} {indirection : Option Indirection} {receiver : TypeId}
    (isFor : decl.IsFor table kind indirection receiver) : decl.name = kind.hookName := by
  cases isFor <;> assumption

theorem IsFor.unique {kind kind' : OpKind} {indirection indirection' : Option Indirection}
    {receiver receiver' : TypeId} (first : decl.IsFor table kind indirection receiver)
    (second : decl.IsFor table kind' indirection' receiver') :
    kind = kind' ∧ indirection = indirection' ∧ receiver = receiver' := by
  cases first <;> cases second <;> simp_all

theorem Declares.unique {entry other : HookEntry} (first : decl.Declares table entry)
    (second : decl.Declares table other) : entry = other := by
  obtain ⟨receiver, isFor, -, targets⟩ := first.signature
  obtain ⟨receiver', isFor', -, targets'⟩ := second.signature
  obtain ⟨sameKind, sameIndirection, rfl⟩ := isFor.unique isFor'
  have sameTarget := targets.unique targets'
  have sameParams := first.params.trans second.params.symm
  have sameResult := first.result.trans second.result.symm
  have sameImpl := first.impl.trans second.impl.symm
  have sameSpan := first.span.trans second.span.symm
  cases entry
  cases other
  simp_all

theorem LacksReceiver.invalid (lacks : decl.LacksReceiver table) (entry : HookEntry) :
    ¬ decl.Declares table entry := by
  rintro declares
  obtain ⟨other, isFor, _, targets⟩ := declares.signature
  obtain ⟨_, _, receiver, isFor', notNominal⟩ := lacks
  obtain ⟨-, -, rfl⟩ := isFor.unique isFor'
  exact targets.not_notNominal notNominal

/-- A declaration that is rejected by itself, with the rejection it gets. -/
structure Refused (table : TypeTable) (decl : HookDecl) (rejection : Rejection) : Prop where
  invalid : ∀ entry, ¬ decl.Declares table entry
  code : decl.LacksReceiver table ∧ rejection.code = .receiverNotNominal ∨
    ¬ decl.LacksReceiver table ∧ rejection.code = .invalidSignature
  spelled : ∃ text, rejection.message table = .ok text
  unnoted : rejection.notes table = .ok []

variable {kind : OpKind} {receiver : TypeId} {rejection : Rejection}

theorem Refused.of_shapeless (shapeless : ∀ kind indirection receiver, ¬ decl.IsFor table kind indirection receiver)
    (code : rejection.code = .invalidSignature) (spelled : ∃ text, rejection.message table = .ok text)
    (unnoted : rejection.notes table = .ok []) : decl.Refused table rejection where
  invalid _ declares :=
    have ⟨_, isFor, _⟩ := declares.signature
    shapeless _ _ _ isFor
  code := .inr ⟨fun ⟨_, _, _, isFor, _⟩ => shapeless _ _ _ isFor, code⟩
  spelled := spelled
  unnoted := unnoted

theorem Refused.of_incomplete {indirection : Option Indirection} {target : TypeId}
    (isFor : decl.IsFor table kind indirection receiver) (targets : table.HookTarget receiver target)
    (incomplete : ¬ decl.Completes table receiver kind)
    (code : rejection.code = .invalidSignature) (spelled : ∃ text, rejection.message table = .ok text)
    (unnoted : rejection.notes table = .ok []) : decl.Refused table rejection where
  invalid entry declares := by
    obtain ⟨other, isFor', completes, _⟩ := declares.signature
    obtain ⟨rfl, rfl, rfl⟩ := isFor.unique isFor'
    exact incomplete completes
  code := by
    refine .inr ⟨?_, code⟩
    rintro ⟨kind', indirection', other, isFor', notNominal⟩
    obtain ⟨-, -, rfl⟩ := isFor.unique isFor'
    exact targets.not_notNominal notNominal
  spelled := spelled
  unnoted := unnoted

theorem Refused.of_receiver {indirection : Option Indirection}
    (isFor : decl.IsFor table kind indirection receiver) (notNominal : table.NotNominal receiver)
    (code : rejection.code = .receiverNotNominal) (spelled : ∃ text, rejection.message table = .ok text)
    (unnoted : rejection.notes table = .ok []) : decl.Refused table rejection where
  invalid := LacksReceiver.invalid ⟨kind, indirection, receiver, isFor, notNominal⟩
  code := .inl ⟨⟨kind, indirection, receiver, isFor, notNominal⟩, code⟩
  spelled := spelled
  unnoted := unnoted

section Checks

open HookCheck TypeTable

variable (regular : table.Regular)

include regular

theorem spelled_bind {text : String → Except Fault String} {id : TypeId} (has : table.Has id)
    (rest : ∀ spelled, ∃ message, text spelled = .ok message) :
    ∃ message, (table.spell id >>= text) = .ok message := by
  obtain ⟨spelled, answers⟩ := spell_answers regular.toWellFormed regular.paramsKnown has
  exact bind_answers answers (rest spelled)

theorem bindingTarget_settles {indirection : Option Indirection} (has : table.Has receiver)
    (isFor : decl.IsFor table kind indirection receiver) :
    Settles (bindingTarget table kind receiver) (table.HookTarget receiver) (decl.Refused table) := by
  obtain ⟨type, found⟩ := has.exists
  refine settles_bind_lift (get_eq_ok.mpr found) ?_
  cases nominal : type.isNominal with
  | false =>
      refine settles_throw (.of_receiver isFor ⟨type, found, nominal⟩ rfl ?_ rfl)
      exact spelled_bind regular has fun spelled => ⟨_, rfl⟩
  | true =>
      cases type with
      | applied head args =>
          change Settles (_ >>= _) _ _
          have each : ∀ arg ∈ args, Settles (do return decide ((← liftM (table.get arg)).kind = .typevar))
              (fun passes => passes = true ↔ table.IsTypevar arg) (decl.Refused table) := by
            intro arg member
            obtain ⟨type, found⟩ := (regular.earlier receiver _ found arg (List.mem_cons_of_mem _ member)).1.exists
            refine settles_bind_lift (get_eq_ok.mpr found) ?_
            exact settles_pure (by cases type <;> simp [IsTypevar, found, TypeDef.kind])
          refine (settles_allM each).bind fun all told => ?_
          cases all with
          | true => exact settles_pure (.generic found (told.mp rfl))
          | false =>
              refine settles_pure (.itself found nominal ?_)
              rintro _ _ ⟨⟩ typevars
              simpa using told.mpr typevars
      | object object => exact settles_pure (.itself found nominal (by simp))
      | distinct name underlying span => exact settles_pure (.itself found nominal (by simp))
      | _ => cases nominal

theorem checkNoResult_settles {indirection : Option Indirection} {target : TypeId}
    (isFor : decl.IsFor table kind indirection receiver) (targets : table.HookTarget receiver target)
    (has : table.Has decl.result)
    (needed : decl.Completes table receiver kind → table.get? decl.result = some .void) :
    Settles (checkNoResult table kind decl.result) (fun _ => table.get? decl.result = some .void)
      (decl.Refused table) := by
  obtain ⟨type, found⟩ := has.exists
  refine settles_bind_lift (get_eq_ok.mpr found) ?_
  by_cases isVoid : type = .void
  · subst isVoid
    exact settles_pure found
  · have differs : type.kind ≠ .void := by cases type <;> simp_all [TypeDef.kind]
    rw [if_pos differs]
    refine settles_throw (.of_incomplete isFor targets (fun completes => ?_) rfl ?_ rfl)
    · exact isVoid (Option.some.inj (found.symm.trans (needed completes)))
    · exact spelled_bind regular has fun spelled => ⟨_, rfl⟩

/-- The end of the check of an assignment, for the type of the value that it takes. -/
theorem checkAssign_value_settles {destination source target value : TypeId}
    (isFor : decl.IsFor table .assign none receiver) (params : decl.params = [destination, source])
    (targets : table.HookTarget receiver target) (isOver : decl.IsOver table) (has : table.Has receiver)
    (takes : value = receiver ↔ source = receiver ∨ table.get? source = some (.wrap .lent receiver)) :
    Settles (do
      if value ≠ receiver then
        throw (.assignSource receiver source)
      checkNoResult table .assign decl.result
      return { kind := .assign, target := target, params := decl.params,
               result := decl.result, impl := decl.impl, span := decl.span })
      (decl.Declares table) (decl.Refused table) := by
  have needed (completes : decl.Completes table receiver .assign) :
      value = receiver ∧ table.get? decl.result = some .void := by
    obtain ⟨⟨other, second, taken⟩, isVoid⟩ := completes
    obtain rfl : source = other := by simpa [params] using second
    exact ⟨takes.mpr taken, isVoid⟩
  dsimp only
  split
  · rename_i differs
    refine settles_throw_bind
      (.of_incomplete isFor targets (fun completes => differs (needed completes).1) rfl ?_ rfl)
    refine spelled_bind regular has fun expected => ?_
    exact spelled_bind regular (isOver.1 source (by simp [params])) fun spelled => ⟨_, rfl⟩
  · rename_i same
    have taken := takes.mp (not_not.mp same)
    refine (checkNoResult_settles regular isFor targets isOver.2 fun completes => (needed completes).2).bind
      fun _ isVoid => ?_
    exact settles_pure ⟨⟨receiver, isFor, ⟨⟨source, by simp [params], taken⟩, isVoid⟩, targets⟩, rfl, rfl, rfl, rfl⟩

theorem checkAssign_settles (named : decl.name = "=") (isOver : decl.IsOver table) :
    Settles (decl.checkAssign table) (decl.Declares table) (decl.Refused table) := by
  unfold checkAssign
  split
  · rename_i destination source params
    obtain ⟨type, found⟩ := (isOver.1 destination (by simp [params])).exists
    obtain ⟨sourceType, sourceFound⟩ := (isOver.1 source (by simp [params])).exists
    refine settles_bind_lift (get_eq_ok.mpr found) ?_
    split
    · rename_i receiver
      have isFor : decl.IsFor table .assign none receiver := .assign named params found
      have hasReceiver := (regular.earlier destination _ found receiver (by simp [TypeDef.parts])).1
      refine (bindingTarget_settles regular hasReceiver isFor).bind fun target targets => ?_
      refine settles_bind_lift (get_eq_ok.mpr sourceFound) ?_
      dsimp only
      split
      · rename_i inner
        refine checkAssign_value_settles regular isFor params targets isOver hasReceiver ?_
        constructor
        · rintro rfl
          exact .inr sourceFound
        · rintro (rfl | lent)
          · exact absurd ⟨_, sourceFound, rfl⟩ targets.not_notNominal
          · exact (TypeDef.wrap.inj (Option.some.inj (sourceFound.symm.trans lent))).2
      · rename_i notLent
        refine checkAssign_value_settles regular isFor params targets isOver hasReceiver ?_
        refine (or_iff_left ?_).symm
        intro lent
        exact notLent receiver (Option.some.inj (sourceFound.symm.trans lent))
    · rename_i notVar
      refine settles_throw (.of_shapeless (fun kind indirection receiver isFor => ?_) rfl ?_ rfl)
      · cases isFor <;> simp_all
      · exact spelled_bind regular (isOver.1 destination (by simp [params])) fun spelled => ⟨_, rfl⟩
  · rename_i notPair
    refine settles_throw (.of_shapeless (fun kind indirection receiver isFor => ?_) rfl ⟨_, rfl⟩ rfl)
    cases isFor <;> simp_all

theorem checkDestroy_settles (named : decl.name = "=destroy") (isOver : decl.IsOver table) :
    Settles (decl.checkDestroy table) (decl.Declares table) (decl.Refused table) := by
  unfold checkDestroy
  split
  · rename_i param params
    have hasParam := isOver.1 param (by simp [params])
    obtain ⟨type, found⟩ := hasParam.exists
    refine settles_bind_lift (get_eq_ok.mpr found) ?_
    have byReference (shapeless : ∀ kind indirection receiver, ¬ decl.IsFor table kind indirection receiver) :
        Settles (throw (.destroyByReference param)) (decl.Declares table) (decl.Refused table) :=
      settles_throw (.of_shapeless shapeless rfl (spelled_bind regular hasParam fun _ => ⟨_, rfl⟩) rfl)
    split
    · refine byReference fun kind indirection receiver isFor => ?_
      cases isFor <;> simp_all
    · refine byReference fun kind indirection receiver isFor => ?_
      cases isFor <;> simp_all
    · rename_i notVar notLent
      have isFor : decl.IsFor table .destroy none param :=
        .destroy named params (fun inner same => notVar inner (Option.some.inj (found.symm.trans same)))
          fun inner same => notLent inner (Option.some.inj (found.symm.trans same))
      refine (bindingTarget_settles regular hasParam isFor).bind fun target targets => ?_
      refine (checkNoResult_settles regular isFor targets isOver.2 fun isVoid => isVoid).bind fun _ isVoid => ?_
      exact settles_pure ⟨⟨param, isFor, isVoid, targets⟩, rfl, rfl, rfl, rfl⟩
  · rename_i notSingle
    refine settles_throw (.of_shapeless (fun kind indirection receiver isFor => ?_) rfl ⟨_, rfl⟩ rfl)
    cases isFor <;> simp_all

theorem checkDeepCopy_settles (named : decl.name = "=deepCopy") (isOver : decl.IsOver table) :
    Settles (decl.checkDeepCopy table) (decl.Declares table) (decl.Refused table) := by
  unfold checkDeepCopy
  split
  · rename_i param params
    have hasParam := isOver.1 param (by simp [params])
    obtain ⟨type, found⟩ := hasParam.exists
    refine settles_bind_lift (get_eq_ok.mpr found) ?_
    split
    · rename_i indirection receiver isIndirection isPointee
      obtain ⟨wrapper, rfl⟩ : ∃ wrapper, type = .wrap wrapper receiver := by
        cases type with
        | wrap wrapper inner =>
            refine ⟨wrapper, ?_⟩
            cases wrapper <;> simp_all [TypeDef.indirection?, TypeDef.pointee?, Wrapper.indirection?]
        | _ => cases isIndirection
      dsimp only
      split
      · rename_i differs
        refine settles_throw_bind (.of_shapeless (fun kind indirection receiver isFor => ?_) rfl ?_ rfl)
        · cases isFor <;> simp_all
        · refine spelled_bind regular hasParam fun expected => ?_
          exact spelled_bind regular isOver.2 fun spelled => ⟨_, rfl⟩
      · rename_i same
        have isFor : decl.IsFor table .deepCopy (some indirection) receiver :=
          .deepCopy named params found isIndirection (not_not.mp same)
        have hasReceiver := (regular.earlier param _ found receiver (by simp [TypeDef.parts])).1
        refine (bindingTarget_settles regular hasReceiver isFor).bind fun target targets => ?_
        exact settles_pure ⟨⟨receiver, isFor, trivial, targets⟩, rfl, rfl, rfl, rfl⟩
    · rename_i notIndirection
      refine settles_throw (.of_shapeless (fun kind indirection receiver isFor => ?_) rfl ?_ rfl)
      · cases isFor with
        | deepCopy _ params' isWrap isIndirection _ =>
            obtain ⟨rfl, -⟩ := List.cons.inj (params.symm.trans params')
            obtain rfl := Option.some.inj (found.symm.trans isWrap)
            refine notIndirection _ receiver isIndirection ?_
            cases ‹Wrapper› <;> first | rfl | cases isIndirection
        | _ => simp_all
      · exact spelled_bind regular hasParam fun spelled => ⟨_, rfl⟩
  · rename_i notSingle
    refine settles_throw (.of_shapeless (fun kind indirection receiver isFor => ?_) rfl ⟨_, rfl⟩ rfl)
    cases isFor <;> simp_all

/-- The check of a declaration accepts it with the entry that it declares, or refuses it. -/
theorem check_settles (isOver : decl.IsOver table) :
    Settles (decl.check table) (decl.Declares table) (decl.Refused table) := by
  unfold check
  split
  · rename_i unnamed
    refine settles_throw (.of_shapeless (fun kind indirection receiver isFor => ?_) rfl ⟨_, rfl⟩ rfl)
    have named := isFor.named
    rw [named, OpKind.ofHookName?_hookName] at unnamed
    cases unnamed
  · exact checkAssign_settles regular (OpKind.ofHookName?_eq_some ‹_›) isOver
  · exact checkDestroy_settles regular (OpKind.ofHookName?_eq_some ‹_›) isOver
  · exact checkDeepCopy_settles regular (OpKind.ofHookName?_eq_some ‹_›) isOver

theorem declares_of_accepts {entry : HookEntry} (isOver : decl.IsOver table)
    (accepts : Accepts (decl.check table) entry) : decl.Declares table entry := by
  rcases (check_settles regular isOver).cases with ⟨other, run, declares⟩ | ⟨rejection, run, _⟩
  · cases accepts.symm.trans run
    exact declares
  · cases accepts.symm.trans run

end Checks

end HookDecl
end LifecycleHooks

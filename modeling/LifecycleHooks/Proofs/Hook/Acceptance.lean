import LifecycleHooks.Hook.Binder
import LifecycleHooks.Proofs.Types.Extension

/-!
# Accepted hooks

A hook that was bound had passed its checks, is bound to the type that the checks found
for its receiver, and is the one found there.
-/

namespace LifecycleHooks

namespace HookCheck

variable {First Second : Type}

/-- A check that comes out without a rejection. -/
def Accepts (check : HookCheck First) (result : First) : Prop := check.run = .ok (.ok result)

@[simp]
theorem accepts_pure {result other : First} : Accepts (pure result) other ↔ result = other := by
  simp [Accepts, ExceptT.run, pure, ExceptT.pure, ExceptT.mk, Except.pure]

@[simp]
theorem accepts_throw {rejection : Rejection} {result : First} :
    ¬ Accepts (throw rejection) result := by
  simp [Accepts, ExceptT.run, throw, throwThe, MonadExceptOf.throw, ExceptT.mk, pure, Except.pure]

theorem accepts_bind {check : HookCheck First} {next : First → HookCheck Second} {result : Second} :
    Accepts (check >>= next) result ↔ ∃ first, Accepts check first ∧ Accepts (next first) result := by
  unfold Accepts
  simp only [ExceptT.run, bind, ExceptT.bind, ExceptT.mk, Except.bind]
  cases check with
  | error fault => simp
  | ok answer => cases answer <;> simp [ExceptT.bindCont, pure, Except.pure]

@[simp]
theorem accepts_lift {answer : Except Fault First} {result : First} :
    Accepts (liftM answer) result ↔ answer = .ok result := by
  unfold Accepts
  cases answer <;> simp [liftM, monadLift, MonadLift.monadLift, ExceptT.lift, ExceptT.run, ExceptT.mk,
    Functor.map, Except.map]

theorem accepts_allM {items : List First} {test : First → HookCheck Bool} {property : First → Prop}
    (tells : ∀ item passes, Accepts (test item) passes → (passes = true ↔ property item))
    {all : Bool} (accepts : Accepts (items.allM test) all) :
    all = true ↔ ∀ item ∈ items, property item := by
  induction items generalizing all with
  | nil =>
      rw [List.allM, accepts_pure] at accepts
      simp [← accepts]
  | cons item items ih =>
      rw [List.allM, accepts_bind] at accepts
      obtain ⟨passes, first, rest⟩ := accepts
      have told := tells item passes first
      cases passes with
      | false =>
          rw [accepts_pure] at rest
          subst rest
          simpa using fun property => absurd (told.mpr property) (by simp)
      | true => simp [ih rest, told.mp rfl]

end HookCheck

namespace TypeTable

/-- A type variable of a table. -/
def IsTypevar (table : TypeTable) (id : TypeId) : Prop := ∃ name, table.get? id = some (.typevar name)

end TypeTable

namespace HookDecl

open HookCheck

variable {table : TypeTable} {kind : OpKind} {receiver target : TypeId}

/-- A hook for an object is bound to the object. -/
theorem target_of_object {object : ObjectType} (isObject : table.get? receiver = some (.object object))
    (accepts : Accepts (bindingTarget table kind receiver) target) : target = receiver := by
  obtain ⟨type, found, rest⟩ := accepts_bind.mp accepts
  obtain rfl := Option.some.inj
    ((TypeTable.get_eq_ok.mp (accepts_lift.mp found)).symm.trans isObject)
  exact (accepts_pure.mp rest).symm

/-- A hook for an instance is bound to the generic object when all arguments are type
variables, and to the instance otherwise. -/
theorem target_of_applied {head : TypeId} {args : List TypeId}
    (isApplied : table.get? receiver = some (.applied head args))
    (accepts : Accepts (bindingTarget table kind receiver) target) :
    (target = head ∧ ∀ arg ∈ args, table.IsTypevar arg) ∨
      target = receiver ∧ ¬ ∀ arg ∈ args, table.IsTypevar arg := by
  obtain ⟨type, found, rest⟩ := accepts_bind.mp accepts
  obtain rfl := Option.some.inj
    ((TypeTable.get_eq_ok.mp (accepts_lift.mp found)).symm.trans isApplied)
  obtain ⟨all, tested, rest⟩ := accepts_bind.mp (show Accepts (_ >>= _) target from rest)
  have tells : all = true ↔ ∀ arg ∈ args, table.IsTypevar arg := by
    refine accepts_allM (fun arg passes accepts => ?_) tested
    obtain ⟨type, found, rest⟩ := accepts_bind.mp accepts
    have isType := TypeTable.get_eq_ok.mp (accepts_lift.mp found)
    rw [← accepts_pure.mp rest]
    cases type <;> simp [TypeTable.IsTypevar, isType, TypeDef.kind]
  cases all with
  | true => exact .inl ⟨(accepts_pure.mp rest).symm, tells.mp rfl⟩
  | false => exact .inr ⟨(accepts_pure.mp rest).symm, fun typevars => by simpa using tells.mpr typevars⟩

end HookDecl

section Receivers

/-- The receiver that an assignment or a destructor is declared for. -/
inductive HookEntry.Receives (table : TypeTable) (entry : HookEntry) : TypeId → Prop where
  | assign {destination source receiver : TypeId} (isAssign : entry.kind = .assign)
      (params : entry.params = [destination, source])
      (isVar : table.get? destination = some (.wrap .var receiver)) : entry.Receives table receiver
  | destroy {receiver : TypeId} (isDestroy : entry.kind = .destroy)
      (params : entry.params = [receiver]) : entry.Receives table receiver

open HookDecl HookCheck

variable {table : TypeTable} {decl : HookDecl} {entry : HookEntry}

theorem checkAssign_accepts (accepts : Accepts (decl.checkAssign table) entry) :
    entry.kind = .assign ∧ ∃ destination source receiver, entry.params = [destination, source] ∧
      table.get? destination = some (.wrap .var receiver) ∧
      Accepts (bindingTarget table .assign receiver) entry.target := by
  unfold checkAssign at accepts
  split at accepts
  · rename_i destination source params
    obtain ⟨type, found, rest⟩ := accepts_bind.mp accepts
    have isType := TypeTable.get_eq_ok.mp (accepts_lift.mp found)
    split at rest
    · rename_i receiver
      obtain ⟨target, targeted, rest⟩ := accepts_bind.mp rest
      obtain ⟨sourceType, _, rest⟩ := accepts_bind.mp rest
      have passed (value : TypeId) (rest : Accepts (do
          if value ≠ receiver then
            throw (.assignSource receiver source)
          checkNoResult table .assign decl.result
          return { kind := .assign, target := target, params := decl.params,
                   result := decl.result, impl := decl.impl, span := decl.span }) entry) :
          entry.kind = .assign ∧ ∃ destination source receiver, entry.params = [destination, source] ∧
            table.get? destination = some (.wrap .var receiver) ∧
            Accepts (bindingTarget table .assign receiver) entry.target := by
        dsimp only at rest
        split at rest
        · obtain ⟨_, impossible, _⟩ := accepts_bind.mp rest
          exact absurd impossible accepts_throw
        · obtain ⟨_, _, rest⟩ := accepts_bind.mp rest
          rw [accepts_pure] at rest
          subst rest
          exact ⟨rfl, destination, source, receiver, params, isType, targeted⟩
      dsimp only at rest
      split at rest
      · exact passed _ rest
      · exact passed _ rest
    · exact absurd rest accepts_throw
  · exact absurd accepts accepts_throw

theorem checkDestroy_accepts (accepts : Accepts (decl.checkDestroy table) entry) :
    entry.kind = .destroy ∧ ∃ receiver, entry.params = [receiver] ∧
      Accepts (bindingTarget table .destroy receiver) entry.target := by
  unfold checkDestroy at accepts
  split at accepts
  · rename_i param params
    obtain ⟨type, found, rest⟩ := accepts_bind.mp accepts
    split at rest
    · exact absurd rest accepts_throw
    · exact absurd rest accepts_throw
    · obtain ⟨target, targeted, rest⟩ := accepts_bind.mp rest
      obtain ⟨_, _, rest⟩ := accepts_bind.mp rest
      rw [accepts_pure] at rest
      subst rest
      exact ⟨rfl, param, params, targeted⟩
  · exact absurd accepts accepts_throw

theorem checkDeepCopy_accepts (accepts : Accepts (decl.checkDeepCopy table) entry) :
    entry.kind = .deepCopy := by
  unfold checkDeepCopy at accepts
  split at accepts
  · obtain ⟨type, found, rest⟩ := accepts_bind.mp accepts
    split at rest
    · dsimp only at rest
      split at rest
      · obtain ⟨_, impossible, _⟩ := accepts_bind.mp rest
        exact absurd impossible accepts_throw
      · obtain ⟨_, _, rest⟩ := accepts_bind.mp rest
        rw [accepts_pure] at rest
        subst rest
        rfl
    · exact absurd rest accepts_throw
  · exact absurd accepts accepts_throw

/-- An accepted hook is bound to the type that the check finds for its receiver. -/
theorem HookEntry.Receives.target {receiver : TypeId} (receives : entry.Receives table receiver)
    (accepts : Accepts (decl.check table) entry) :
    Accepts (bindingTarget table entry.kind receiver) entry.target := by
  unfold HookDecl.check at accepts
  split at accepts
  · exact absurd accepts accepts_throw
  · obtain ⟨isAssign, destination, source, known, params, isVar, targeted⟩ := checkAssign_accepts accepts
    cases receives with
    | assign _ sameParams sameVar =>
        obtain ⟨rfl, _⟩ := List.cons.inj (params.symm.trans sameParams)
        obtain ⟨_, rfl⟩ := TypeDef.wrap.inj (Option.some.inj (isVar.symm.trans sameVar))
        rw [isAssign]
        exact targeted
    | destroy isDestroy _ => cases isAssign.symm.trans isDestroy
  · obtain ⟨isDestroy, known, params, targeted⟩ := checkDestroy_accepts accepts
    cases receives with
    | assign isAssign _ _ => cases isDestroy.symm.trans isAssign
    | destroy _ sameParams =>
        obtain ⟨rfl, _⟩ := List.cons.inj (params.symm.trans sameParams)
        rw [isDestroy]
        exact targeted
  · have isDeepCopy := checkDeepCopy_accepts accepts
    cases receives with
    | assign isAssign _ _ => cases isDeepCopy.symm.trans isAssign
    | destroy isDestroy _ => cases isDeepCopy.symm.trans isDestroy

end Receivers

namespace Binder

open Attempt HookCheck

variable {table : TypeTable}

/-- A registry of hooks that passed their checks, each found where it is bound. -/
structure Accepted (table : TypeTable) (decls : List HookDecl) (registry : Registry) : Prop where
  checked : ∀ entry ∈ registry.entries, ∃ decl ∈ decls, Accepts (decl.check table) entry
  found : ∀ entry ∈ registry.entries, registry.lookup entry.target entry.kind = some entry

theorem checkFree_accepts {registry : Registry} {entry : HookEntry} {result : Unit}
    (accepts : Accepts (HookDecl.checkFree registry entry) result) :
    registry.lookup entry.target entry.kind = none := by
  unfold HookDecl.checkFree at accepts
  split at accepts
  · assumption
  · split at accepts <;> exact absurd accepts accepts_throw

theorem lookup_append {registry bound : Registry} {entry other : HookEntry}
    (entries : bound.entries = registry.entries ++ [entry])
    (free : registry.lookup entry.target entry.kind = none)
    (found : other ∈ registry.entries → registry.lookup other.target other.kind = some other)
    (member : other ∈ bound.entries) : bound.lookup other.target other.kind = some other := by
  unfold Registry.lookup at *
  rw [entries] at member ⊢
  rw [List.find?_append]
  cases List.mem_append.mp member with
  | inl before => rw [found before, Option.some_or]
  | inr new =>
      obtain rfl := List.mem_singleton.mp new
      rw [free, Option.none_or]
      simp

/-- A declaration leaves the registry as it is, or it is accepted and bound where nothing was. -/
theorem bind_cases {decl : HookDecl} {binder later : Binder} {result : Option HookEntry}
    (run : bind table decl binder = .ok result later) :
    later.registry = binder.registry ∧ result = none ∨
      ∃ entry, result = some entry ∧ Accepts (decl.check table) entry ∧
        binder.registry.lookup entry.target entry.kind = none ∧
        later.registry.entries = binder.registry.entries ++ [entry] := by
  unfold bind at run
  rw [get_bind_run] at run
  obtain ⟨checked, middle, checks, rest⟩ := bind_eq_ok.mp run
  obtain ⟨answer, rfl⟩ := ofExcept_eq_ok.mp checks
  cases checked with
  | error rejection =>
      obtain ⟨diagnostic, middle, _, rest⟩ := bind_eq_ok.mp rest
      obtain ⟨_, _, set, rest⟩ := bind_eq_ok.mp rest
      obtain ⟨_, rfl⟩ := EStateM.Result.ok.inj set
      obtain ⟨rfl, rfl⟩ := EStateM.Result.ok.inj rest
      exact .inl ⟨rfl, rfl⟩
  | ok entry =>
      obtain ⟨other, passes, rest'⟩ := accepts_bind.mp answer
      obtain ⟨_, free, same⟩ := accepts_bind.mp rest'
      obtain rfl := accepts_pure.mp same
      obtain ⟨registry, middle, binds, rest⟩ := bind_eq_ok.mp rest
      obtain ⟨bound, rfl⟩ := ofExcept_eq_ok.mp binds
      obtain ⟨_, _, set, rest⟩ := bind_eq_ok.mp rest
      obtain ⟨_, rfl⟩ := EStateM.Result.ok.inj set
      obtain ⟨rfl, rfl⟩ := EStateM.Result.ok.inj rest
      exact .inr ⟨other, rfl, passes, checkFree_accepts free, Registry.entries_bind bound⟩

theorem bind_accepted {decls : List HookDecl} {decl : HookDecl} {binder later : Binder}
    {result : Option HookEntry} (accepted : Accepted table decls binder.registry) (listed : decl ∈ decls)
    (run : bind table decl binder = .ok result later) : Accepted table decls later.registry := by
  rcases bind_cases run with ⟨same, -⟩ | ⟨entry, -, passes, free, entries⟩
  · rwa [same]
  · refine ⟨fun known member => ?_, fun known => lookup_append entries free (accepted.found known)⟩
    rw [entries] at member
    cases List.mem_append.mp member with
    | inl before => exact accepted.checked known before
    | inr new =>
        obtain rfl := List.mem_singleton.mp new
        exact ⟨decl, listed, passes⟩

theorem bindEach_accepted {decls rest : List HookDecl} {binder later : Binder}
    (accepted : Accepted table decls binder.registry) (listed : ∀ decl ∈ rest, decl ∈ decls)
    (run : bindEach table rest binder = .ok () later) : Accepted table decls later.registry := by
  induction rest generalizing binder with
  | nil =>
      obtain ⟨_, rfl⟩ := EStateM.Result.ok.inj run
      exact accepted
  | cons decl rest ih =>
      obtain ⟨result, middle, first, run⟩ := bind_eq_ok.mp run
      exact ih (bind_accepted accepted (listed decl List.mem_cons_self) first)
        (fun other member => listed other (List.mem_cons_of_mem _ member)) run

/-- Every hook that was bound passed its checks and is found where it is bound. -/
theorem bindAll_accepted {decls : List HookDecl} {binder : Binder}
    (run : bindAll table decls {} = .ok () binder) :
    binder.registry.frozen = true ∧ Accepted table decls binder.registry := by
  obtain ⟨_, middle, binds, frozen⟩ := bind_eq_ok.mp run
  obtain ⟨_, rfl⟩ := EStateM.Result.ok.inj frozen
  have accepted := bindEach_accepted ⟨by simp, by simp⟩ (fun _ member => member) binds
  exact ⟨rfl, accepted.checked, accepted.found⟩

end Binder
end LifecycleHooks

import LifecycleHooks.Proofs.Hook.Acceptance
import LifecycleHooks.Proofs.Lifting.Serving
import LifecycleHooks.Proofs.Types.Variables

/-!
# Which instances a hook governs

A hook for a generic receiver reads like a pattern of instances.  The binder reduces the
receiver to one type, so the hook governs every other instance of the generic object when
all arguments of the receiver are type variables, and no other instance otherwise.
-/

namespace LifecycleHooks
namespace TypeTable

/-- A generic object or an instance of one, with the arguments that it stands for.  The
object alone stands for its own type parameters. -/
inductive Pattern (table : TypeTable) : (receiver head : TypeId) → (args : List TypeId) → Prop where
  | generic {head : TypeId} {object : ObjectType} (isHead : table.get? head = some (.object object))
      (isGeneric : object.params ≠ []) : Pattern table head head object.params
  | applied {receiver head : TypeId} {args : List TypeId}
      (isApplied : table.get? receiver = some (.applied head args)) : Pattern table receiver head args

/-- A type that is the instance of a pattern with types substituted for type variables. -/
def Matches (table : TypeTable) (head : TypeId) (args : List TypeId) (id : TypeId) : Prop :=
  ∃ assign : TypeId → Option TypeTree,
    table.tree id = .node (.applied head) ((args.map table.tree).map (TypeTree.substitute assign))

variable {table larger : TypeTable} {receiver head : TypeId} {args : List TypeId}

theorem Pattern.args_ne_nil (wellFormed : table.WellFormed) (pattern : table.Pattern receiver head args) :
    args ≠ [] := by
  cases pattern with
  | generic isHead isGeneric => exact isGeneric
  | applied isApplied =>
      obtain ⟨object, _, isGeneric, sameLength⟩ := wellFormed.applied receiver head args isApplied
      rintro rfl
      exact isGeneric (List.length_eq_zero_iff.mp sameLength.symm)

theorem IsTypevar.tree_eq (wellFormed : table.WellFormed) {id : TypeId} (isTypevar : table.IsTypevar id) :
    table.tree id = .node (.typevar id) [] := by
  obtain ⟨name, found⟩ := isTypevar
  exact wellFormed.tree_eq found

theorem IsTypevar.extends_ {id : TypeId} (isTypevar : table.IsTypevar id)
    (extends_ : table.Extends larger) : larger.IsTypevar id := by
  obtain ⟨name, found⟩ := isTypevar
  exact ⟨name, extends_.get? found⟩

theorem IsTypevar.hasTypevars_eq {id : TypeId} (isTypevar : table.IsTypevar id) :
    table.hasTypevars id = .ok true := by
  obtain ⟨name, found⟩ := isTypevar
  unfold hasTypevars hasTypevarsWithin
  rw [get_eq_ok.mpr found]
  rfl

/-- Distinct keys are looked up one by one. -/
theorem map_lookup_zip {Value : Type} {keys : List TypeId} {values : List Value} (distinct : keys.Nodup)
    (sameLength : values.length = keys.length) :
    keys.map (fun key => (keys.zip values).lookup key) = values.map some := by
  induction keys generalizing values with
  | nil => rw [List.length_eq_zero_iff.mp sameLength]; rfl
  | cons key keys ih =>
      cases values with
      | nil => cases sameLength
      | cons value values =>
          obtain ⟨new, distinct⟩ := List.nodup_cons.mp distinct
          rw [List.map_cons, List.map_cons, ← ih distinct (by simpa using sameLength)]
          refine congrArg₂ List.cons (by simp) (List.map_congr_left fun other member => ?_)
          have differ : other ≠ key := by
            rintro rfl
            exact new member
          rw [List.zip_cons_cons, ResolveM.lookup_cons_of_ne differ]

/-- Distinct type variables match any arguments. -/
theorem matches_of_distinct (wellFormed : table.WellFormed) {id : TypeId} {others : List TypeId}
    (isApplied : table.get? id = some (.applied head others)) (sameLength : others.length = args.length)
    (typevars : ∀ arg ∈ args, table.IsTypevar arg) (distinct : args.Nodup) :
    table.Matches head args id := by
  refine ⟨fun arg => (args.zip (others.map table.tree)).lookup arg, ?_⟩
  rw [wellFormed.tree_eq isApplied]
  refine congrArg (TypeTree.node _) (List.map_injective_iff.mpr (Option.some_injective _) ?_)
  rw [TypeDef.operands, ← map_lookup_zip distinct (by simpa using sameLength), List.map_map, List.map_map]
  refine List.map_congr_left fun arg member => ?_
  obtain ⟨tree, found⟩ : ∃ tree, (args.zip (others.map table.tree)).lookup arg = some tree := by
    have all := map_lookup_zip distinct (show (others.map table.tree).length = args.length by
      simpa using sameLength)
    have inside : (args.zip (others.map table.tree)).lookup arg ∈ (others.map table.tree).map some := by
      rw [← all]
      exact List.mem_map_of_mem member
    obtain ⟨tree, _, same⟩ := List.mem_map.mp inside
    exact ⟨tree, same.symm⟩
  simp [(typevars arg member).tree_eq wellFormed, TypeTree.substitute, found]

theorem Pattern.sameLength (wellFormed : larger.WellFormed) (extends_ : table.Extends larger)
    (wellFormed' : table.WellFormed) (pattern : table.Pattern receiver head args) {id : TypeId} {others : List TypeId}
    (isApplied : larger.get? id = some (.applied head others)) : others.length = args.length := by
  obtain ⟨object, isHead, _, sameLength⟩ := wellFormed.applied id head others isApplied
  rw [sameLength]
  cases pattern with
  | generic isObject _ =>
      obtain rfl := TypeDef.object.inj (Option.some.inj ((extends_.get? isObject).symm.trans isHead))
      rfl
  | applied isInstance =>
      obtain ⟨other, isObject, _, argsLength⟩ := wellFormed'.applied receiver head args isInstance
      obtain rfl := TypeDef.object.inj (Option.some.inj ((extends_.get? isObject).symm.trans isHead))
      exact argsLength.symm

/-- Without type variables an instance matches nothing but itself. -/
theorem Pattern.matches_concrete (regular : table.Regular) (wellFormed : larger.WellFormed)
    (extends_ : table.Extends larger) (pattern : table.Pattern receiver head args)
    (concrete : ∀ arg ∈ args, table.hasTypevars arg = .ok false) {id : TypeId} (has : larger.Has id)
    (isMatch : larger.Matches head args id) : id = receiver := by
  cases pattern with
  | generic isHead isGeneric =>
      obtain ⟨param, member⟩ := List.exists_mem_of_ne_nil _ isGeneric
      have isTypevar : table.IsTypevar param := (regular.params _ _ isHead).2 param member
      cases (concrete param member).symm.trans isTypevar.hasTypevars_eq
  | applied isInstance =>
      obtain ⟨assign, same⟩ := isMatch
      have isInstance' := extends_.get? isInstance
      refine wellFormed.tree_injective has (has_of_get? isInstance') ?_
      rw [same, wellFormed.tree_eq isInstance', TypeDef.label, TypeDef.operands, List.map_map]
      refine congrArg (TypeTree.node _) (List.map_congr_left fun arg member => ?_)
      have hasArg := (regular.earlier receiver _ isInstance arg (List.mem_cons_of_mem _ member)).1
      rw [Function.comp_apply, regular.tree_extends extends_ hasArg]
      have closed := regular.toWellFormed.isClosed_of_hasTypevars (concrete arg member)
      exact TypeTree.substitute_eq_self fun var mentions => absurd mentions (closed var)

end TypeTable

namespace Resolver

open Attempt ResolveM

/-- Asked for the operation on a type, the resolver answers with a hook. -/
def Governs (resolver : Resolver) (hooks : Registry) (entry : HookEntry) (id : TypeId) : Prop :=
  ∃ fuel final, resolve hooks fuel id entry.kind resolver =
    .ok ⟨id, entry.kind, .overridden entry⟩ final

variable {hooks : Registry} {resolver : Resolver} {entry : HookEntry} {id head : TypeId}
  {args : List TypeId}

/-- The explanation of an operation on a clear type with a hook is that hook. -/
theorem Explained.governed {kind : OpKind} {outcome : Outcome}
    (explained : Explained hooks kind resolver id outcome) (clear : resolver.Clear id)
    (hook : resolver.table.Overridden hooks kind id entry) : outcome = .overridden entry := by
  have answer := TypeTable.governingHook?_eq_ok_some.mpr hook
  cases explained with
  | builtIn unhooked =>
      obtain ⟨region, inside, barren⟩ := unhooked
      cases barren id inside with
      | held held => exact absurd held.unresolvable clear.not_unresolvable
      | clear _ unbound _ _ => cases unbound.symm.trans answer
  | overridden _ other =>
      have same := (TypeTable.governingHook?_eq_ok_some.mpr other).symm.trans answer
      rw [Option.some.inj (Except.ok.inj same)]
  | lifted _ unbound _ _ _ _ => cases unbound.symm.trans answer

/-- The resolver answers with the hook that overrides a type of finite structure. -/
theorem governs_of_overridden (ready : resolver.Ready hooks) (frozen : hooks.frozen = true)
    (resolvable : resolver.Resolvable id)
    (hook : resolver.table.Overridden hooks entry.kind id entry) : resolver.Governs hooks entry id := by
  obtain ⟨fuel, final, run⟩ := resolvable
  have clear : final.Clear id := settled_of_run ready.idle run
  have consults := (isUnresolvable_consults fuel id).of_ok run
  have laterHook := Overridden.extends_ consults.toExtends hook
  unfold Governs resolve
  rw [frozen]
  cases known : resolver.operations.lookup (id, entry.kind) with
  | some outcome =>
      have explained := (ready.explained id entry.kind outcome known).extends_ ready.idle consults.toExtends
      have same := explained.governed clear laterHook
      refine ⟨fuel, resolver, ?_⟩
      rw [if_neg (by simp), bind_run_of_ok (known?_run resolver id entry.kind), known, same]
      rfl
  | none =>
      have determined : determine hooks fuel id entry.kind resolver = .ok (.overridden entry) final := by
        unfold determine
        rw [bind_run_of_ok run, if_neg (by simp),
          bind_run_of_ok (ask_eq_ok.mpr ⟨TypeTable.governingHook?_eq_ok_some.mpr laterHook, rfl⟩)]
        rfl
      refine ⟨fuel, { final with
        operations := ((id, entry.kind), .overridden entry) :: final.operations }, ?_⟩
      rw [if_neg (by simp), bind_run_of_ok (known?_run resolver id entry.kind), known]
      exact bind_run_of_ok determined

/-- An instance without a hook of its own is governed by the hook of its generic object. -/
theorem governs_iff_lookup (ready : resolver.Ready hooks) (frozen : hooks.frozen = true)
    (isValue : entry.kind ≠ .deepCopy) (isApplied : resolver.table.get? id = some (.applied head args))
    (unbound : hooks.lookup id entry.kind = none) (resolvable : resolver.Resolvable id) :
    resolver.Governs hooks entry id ↔ hooks.lookup head entry.kind = some entry := by
  constructor
  · rintro ⟨fuel, final, run⟩
    have extends_ := (resolve_extends hooks fuel id entry.kind).of_ok run
    obtain ⟨_, _, _, explained⟩ := resolve_explained ready run
    cases explained with
    | overridden clear hook =>
        cases hook with
        | copied isCopy _ _ _ _ => exact absurd isCopy isValue
        | value _ hook =>
            cases hook with
            | own _ _ bound => cases unbound.symm.trans bound
            | generic isType _ bound =>
                have same := (extends_.table.get? isApplied).symm.trans isType
                obtain ⟨rfl, _⟩ := TypeDef.applied.inj (Option.some.inj same)
                exact bound
  · intro bound
    exact governs_of_overridden ready frozen resolvable (.value isValue (.generic isApplied unbound bound))

end Resolver

namespace HookEntry

open TypeTable Resolver HookCheck

variable {table : TypeTable} {entry : HookEntry} {receiver head : TypeId} {args : List TypeId}

theorem Receives.isValue (receives : entry.Receives table receiver) : entry.kind ≠ .deepCopy := by
  cases receives with
  | assign isAssign _ _ => simp [isAssign]
  | destroy isDestroy _ => simp [isDestroy]

/-- A hook is bound to the generic object of its receiver exactly when the receiver stands
for type variables alone; otherwise it is bound to the receiver itself. -/
theorem Receives.target_of_pattern (regular : table.Regular) (receives : entry.Receives table receiver)
    (pattern : table.Pattern receiver head args) {decl : HookDecl} (accepts : Accepts (decl.check table) entry) :
    (entry.target = head ∧ ∀ arg ∈ args, table.IsTypevar arg) ∨
      entry.target = receiver ∧ receiver ≠ head ∧ ¬ ∀ arg ∈ args, table.IsTypevar arg := by
  have targeted := receives.target accepts
  cases pattern with
  | generic isHead _ =>
      exact .inl ⟨HookDecl.target_of_object isHead targeted, (regular.params _ _ isHead).2⟩
  | applied isApplied =>
      rcases HookDecl.target_of_applied isApplied targeted with bound | ⟨bound, mixed⟩
      · exact .inl bound
      · refine .inr ⟨bound, ?_, mixed⟩
        rintro rfl
        obtain ⟨object, isHead, _⟩ := regular.applied _ _ _ isApplied
        cases isApplied.symm.trans isHead

theorem lookup_iff_target {decls : List HookDecl} {hooks : Registry} (accepted : Binder.Accepted table decls hooks)
    (bound : entry ∈ hooks.entries) (target : TypeId) :
    hooks.lookup target entry.kind = some entry ↔ entry.target = target := by
  constructor
  · intro found
    have holds := List.find?_some found
    simp only [Bool.and_eq_true, decide_eq_true_eq] at holds
    exact holds.1
  · rintro rfl
    exact accepted.found entry bound

/-- An accepted hook for a generic receiver governs an instance of the generic object that
has no hook of its own exactly when all arguments of the receiver, or the parameters of the
object if the receiver is the object alone, are type variables.  When these are distinct, or
when no type variables occur, it governs what the receiver matches. -/
theorem governs_iff_typevars {decls : List HookDecl} {binder : Binder} {resolver : Resolver}
    {id : TypeId} {others : List TypeId} (built : table.Built)
    (bound : Binder.bindAll table decls {} = .ok () binder) (accepted : entry ∈ binder.registry.entries)
    (receives : entry.Receives table receiver) (pattern : table.Pattern receiver head args)
    (serving : Serving binder.registry resolver) (extends_ : table.Extends resolver.table)
    (isInstance : resolver.table.get? id = some (.applied head others))
    (unbound : binder.registry.lookup id entry.kind = none) (resolvable : resolver.Resolvable id) :
    (resolver.Governs binder.registry entry id ↔ ∀ arg ∈ args, table.IsTypevar arg) ∧
      ((args.Nodup ∧ ∀ arg ∈ args, table.IsTypevar arg) ∨
          (∀ arg ∈ args, table.hasTypevars arg = .ok false) →
        (resolver.Governs binder.registry entry id ↔ resolver.table.Matches head args id)) := by
  obtain ⟨frozen, accepts⟩ := Binder.bindAll_accepted bound
  obtain ⟨decl, _, checked⟩ := accepts.checked entry accepted
  have regular := built.regular
  have later := serving.intact.regular
  have governs : resolver.Governs binder.registry entry id ↔ ∀ arg ∈ args, table.IsTypevar arg := by
    rw [governs_iff_lookup serving.ready frozen receives.isValue isInstance unbound resolvable,
      lookup_iff_target accepts accepted]
    rcases receives.target_of_pattern regular pattern checked with ⟨atHead, typevars⟩ | ⟨atReceiver, differ, mixed⟩
    · simp only [atHead, true_iff]
      exact typevars
    · simp only [atReceiver, mixed, iff_false]
      exact differ
  refine ⟨governs, ?_⟩
  rintro (⟨distinct, typevars⟩ | concrete)
  · rw [governs]
    refine ⟨fun _ => ?_, fun _ => typevars⟩
    exact matches_of_distinct later.toWellFormed isInstance
      (pattern.sameLength later.toWellFormed extends_ regular.toWellFormed isInstance)
      (fun arg member => (typevars arg member).extends_ extends_) distinct
  · rw [governs]
    obtain ⟨arg, member⟩ := List.exists_mem_of_ne_nil _ (pattern.args_ne_nil regular.toWellFormed)
    have mixed : ¬ ∀ arg ∈ args, table.IsTypevar arg := fun typevars => by
      cases (concrete arg member).symm.trans (typevars arg member).hasTypevars_eq
    refine ⟨fun typevars => absurd typevars mixed, fun isMatch => ?_⟩
    have isReceiver := pattern.matches_concrete regular later.toWellFormed extends_ concrete
      (has_of_get? isInstance) isMatch
    rcases receives.target_of_pattern regular pattern checked with ⟨_, typevars⟩ | ⟨atReceiver, _, _⟩
    · exact typevars
    · have found := accepts.found entry accepted
      rw [atReceiver, ← isReceiver] at found
      cases unbound.symm.trans found

/-- Each accepted hook for a generic receiver governs exactly the instances that the
receiver matches. -/
def HooksMatchReceivers : Prop :=
  ∀ (table : TypeTable) (decls : List HookDecl) (binder : Binder) (entry : HookEntry)
    (receiver head : TypeId) (args : List TypeId) (resolver : Resolver) (id : TypeId)
    (others : List TypeId), table.Built → Binder.bindAll table decls {} = .ok () binder →
    entry ∈ binder.registry.entries → entry.Receives table receiver →
    table.Pattern receiver head args → Serving binder.registry resolver →
    table.Extends resolver.table → resolver.table.get? id = some (.applied head others) →
    resolver.table.hasTypevars id = .ok false → binder.registry.lookup id entry.kind = none →
    resolver.Resolvable id →
    (resolver.Governs binder.registry entry id ↔ resolver.table.Matches head args id)

/-- Pairs of two types `A` and `B`, with the instances for `A` and integers, for truth values
and integers, and for `A` and `B`. -/
def pairCalls : List TableCall :=
  [.object "Pair" ["A", "B"] {}, .int, .bool, .void,
    .define 1 { fields := [⟨"first", 2⟩, ⟨"second", 3⟩] },
    .instantiate 1 [2, 4], .instantiate 1 [5, 4], .instantiate 1 [2, 3]]

def pairTable : TypeTable := TypeTable.after {} pairCalls

/-- A destructor for pairs of the given kind. -/
def pairDestructor (receiver : TypeId) : HookDecl where
  name := "=destroy"
  impl := "drop"
  params := [receiver]
  result := 6

/-- What binding the destructor leaves. -/
def pairBinder (receiver : TypeId) : Binder :=
  (Binder.bindAll pairTable [pairDestructor receiver]).finish {}

/-- The destructor once it is bound. -/
def pairEntry (receiver target : TypeId) : HookEntry where
  kind := .destroy
  target := target
  params := [receiver]
  result := 6
  impl := "drop"

theorem pairTable_built : pairTable.Built :=
  TypeTable.Built.empty.after (by decide +kernel)

theorem resolvable_pair : Resolvable { table := pairTable } 8 := by
  have answer : (ResolveM.isUnresolvable 9 8).result? { table := pairTable } = some false := by
    decide +kernel
  exact ⟨9, _, Attempt.run_of_result? answer⟩

theorem governs_iff_typevars_pair :
    pairEntry 9 1 ∈ (pairBinder 9).registry.entries ∧
      Governs { table := pairTable } (pairBinder 9).registry (pairEntry 9 1) 8 := by
  have bound : Binder.bindAll pairTable [pairDestructor 9] {} = .ok () (pairBinder 9) := by
    have answer : (Binder.bindAll pairTable [pairDestructor 9]).result? {} = some () := by
      decide +kernel
    exact Attempt.run_of_result? answer
  have accepted : pairEntry 9 1 ∈ (pairBinder 9).registry.entries := by decide +kernel
  have isReceiver : pairTable.get? 9 = some (.applied 1 [2, 3]) := by decide +kernel
  have isInstance : pairTable.get? 8 = some (.applied 1 [5, 4]) := by decide +kernel
  have unbound : (pairBinder 9).registry.lookup 8 .destroy = none := by decide +kernel
  have typevars : ∀ arg ∈ [(2 : TypeId), 3], pairTable.IsTypevar arg := by
    have first : pairTable.get? 2 = some (.typevar "A") := by decide +kernel
    have second : pairTable.get? 3 = some (.typevar "B") := by decide +kernel
    simp [TypeTable.IsTypevar, first, second]
  exact ⟨accepted, (governs_iff_typevars pairTable_built bound accepted (.destroy rfl rfl)
    (.applied isReceiver) (.start pairTable_built) (.refl _) isInstance unbound
    resolvable_pair).1.mpr typevars⟩

/-- A destructor for pairs of anything and an integer governs no pair of a truth value and an
integer. -/
theorem not_hooksMatchReceivers : ¬ HooksMatchReceivers := by
  intro exactly
  have answer : (Binder.bindAll pairTable [pairDestructor 7]).result? {} = some () := by
    decide +kernel
  have accepted : pairEntry 7 7 ∈ (pairBinder 7).registry.entries := by decide +kernel
  have isReceiver : pairTable.get? 7 = some (.applied 1 [2, 4]) := by decide +kernel
  have isInstance : pairTable.get? 8 = some (.applied 1 [5, 4]) := by decide +kernel
  have concrete : pairTable.hasTypevars 8 = .ok false := by decide +kernel
  have unbound : (pairBinder 7).registry.lookup 8 .destroy = none := by decide +kernel
  have iff := exactly pairTable _ _ (pairEntry 7 7) 7 1 [2, 4] { table := pairTable } 8 [5, 4]
    pairTable_built (Attempt.run_of_result? answer) accepted (.destroy rfl rfl) (.applied isReceiver)
    (.start pairTable_built) (.refl _) isInstance concrete unbound resolvable_pair
  have isMatch : pairTable.Matches 1 [2, 4] 8 := by
    have wellFormed := pairTable_built.regular.toWellFormed
    have first : pairTable.get? 2 = some (.typevar "A") := by decide +kernel
    have integer : pairTable.get? 4 = some (.scalar "Int") := by decide +kernel
    have truth : pairTable.get? 5 = some (.scalar "Bool") := by decide +kernel
    refine ⟨fun _ => some (pairTable.tree 5), ?_⟩
    simp [wellFormed.tree_eq isInstance, wellFormed.tree_eq first, wellFormed.tree_eq integer,
      wellFormed.tree_eq truth, TypeDef.label, TypeDef.operands, TypeTree.substitute]
  have governs := iff.mpr isMatch
  rw [governs_iff_lookup (Serving.start pairTable_built).ready (by decide +kernel) (by decide) isInstance
    unbound resolvable_pair] at governs
  have nothing : (pairBinder 7).registry.lookup 1 .destroy = none := by decide +kernel
  cases nothing.symm.trans governs

end HookEntry
end LifecycleHooks

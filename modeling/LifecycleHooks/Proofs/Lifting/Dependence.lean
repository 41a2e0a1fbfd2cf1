import LifecycleHooks.Proofs.Lifting.Serving

/-!
# What operations depend on

An operation on a type depends on the types that it leads to through constituents that take part,
except through types that are held to have no finite structure.  An operation comes out as built in
only once all of them are there.  So where no hook is bound, nothing is resolved that depends on
infinitely many types.
-/

namespace LifecycleHooks

open Attempt ResolveM TypeTable

/-- Whether the constituents of a spelled type take part in an operation on it. -/
def TypeTree.takesPart (kind : OpKind) : TypeTree → Bool
  | .node (.wrap .ref) _ | .node (.wrap .ptr) _ => kind = .deepCopy
  | .node (.wrap .var) _ | .node (.wrap .lent) _ | .node (.typevar _) _ => false
  | _ => true

namespace TypeTable

variable {table : TypeTable}

theorem WellFormed.takesPart_tree {id : TypeId} {type : TypeDef} {kind : OpKind} (wellFormed : table.WellFormed)
    (found : table.get? id = some type) : (table.tree id).takesPart kind = followsConstituents kind type := by
  rw [wellFormed.tree_eq found]
  cases type with
  | wrap wrapper inner => cases wrapper <;> rfl
  | _ => rfl

/-- A table spells finitely many types. -/
theorem finite_spelled (table : TypeTable) : {tree | ∃ id, table.Has id ∧ table.tree id = tree}.Finite := by
  refine ((Set.finite_Icc (1 : Int) table.size).image table.tree).subset ?_
  rintro tree ⟨id, has, rfl⟩
  obtain ⟨type, found⟩ := has.exists
  exact Set.mem_image_of_mem _ (range_of_get? found)

end TypeTable

namespace Resolver

variable {hooks : Registry} {kind : OpKind} {resolver final : Resolver} {id : TypeId} {tree : TypeTree}

/-- The spelling of a type that is not held to lack a finite structure. -/
def Admits (resolver : Resolver) (tree : TypeTree) : Prop :=
  ∀ id, resolver.table.tree id = tree → ¬ resolver.Held id

/-- The types that an operation on a type depends on. -/
def dependence (resolver : Resolver) (kind : OpKind) (id : TypeId) : Set TypeTree :=
  {tree | Relation.ReflTransGen (fun owner part => resolver.Admits owner ∧ owner.takesPart kind = true ∧
    part ∈ resolver.table.constituentTrees owner) (resolver.table.tree id) tree}

/-- The constituents that were found to take part are those of the spelling. -/
theorem part_of_relevantSlots {slots : List Slot} {part : TypeTree} (wellFormed : resolver.table.WellFormed)
    (takes : (resolver.table.tree id).takesPart kind = true)
    (isPart : part ∈ resolver.table.constituentTrees (resolver.table.tree id))
    (run : relevantSlots id kind resolver = .ok slots resolver) :
    ∃ slot ∈ slots, resolver.table.Has slot.type ∧ resolver.table.tree slot.type = part := by
  obtain ⟨type, _, fetching, rest⟩ := bind_eq_ok.mp run
  obtain ⟨found, rfl⟩ := fetch_eq_ok.mp fetching
  have has := has_of_get? (get_eq_ok.mp found)
  rw [wellFormed.takesPart_tree (get_eq_ok.mp found)] at takes
  rw [if_pos takes] at rest
  obtain ⟨table, asked, same⟩ := onTable_eq_ok.mp rest
  obtain ⟨others, larger, worked, _, _, holds⟩ := TableM.constituents_works wellFormed has
  obtain ⟨rfl, rfl⟩ := EStateM.Result.ok.inj (worked.symm.trans asked)
  rw [same]
  obtain ⟨slot, isSlot, spelled⟩ := List.mem_map.mp (holds.1 ▸ isPart)
  exact ⟨slot, isSlot, holds.2 slot isSlot, spelled⟩

/-- All that an unhooked type depends on is there. -/
theorem Unhooked.spelled (unhooked : resolver.Unhooked hooks kind id) (wellFormed : resolver.table.WellFormed)
    (has : resolver.table.Has id) (inside : tree ∈ resolver.dependence kind id) :
    ∃ other, resolver.table.Has other ∧ resolver.table.tree other = tree := by
  obtain ⟨region, isStart, barren⟩ := unhooked
  have inRegion : ∃ other, region other ∧ resolver.table.Has other ∧ resolver.table.tree other = tree := by
    induction inside with
    | refl => exact ⟨id, isStart, has, rfl⟩
    | tail _ step ih =>
        obtain ⟨admits, takes, isPart⟩ := step
        obtain ⟨other, isInside, hasOther, rfl⟩ := ih
        cases barren other isInside with
        | held held => exact absurd held (admits other rfl)
        | clear _ _ parts inside =>
            obtain ⟨slot, isSlot, hasSlot, spelled⟩ := part_of_relevantSlots wellFormed takes isPart parts
            exact ⟨slot.type, inside slot isSlot, hasSlot, spelled⟩
  obtain ⟨other, -, hasOther, spelled⟩ := inRegion
  exact ⟨other, hasOther, spelled⟩

theorem Unhooked.finite_dependence (unhooked : resolver.Unhooked hooks kind id)
    (wellFormed : resolver.table.WellFormed) (has : resolver.table.Has id) : (resolver.dependence kind id).Finite :=
  resolver.table.finite_spelled.subset fun _ inside => unhooked.spelled wellFormed has inside

/-- A hook that is found for an operation is bound for it. -/
theorem bound_of_overridden {entry : HookEntry} (hook : resolver.table.Overridden hooks kind id entry) :
    entry ∈ hooks.entries ∧ entry.kind = kind := by
  have ofLookup {target : TypeId} (bound : hooks.lookup target kind = some entry) :
      entry ∈ hooks.entries ∧ entry.kind = kind := by
    unfold Registry.lookup at bound
    have both : entry.target = target ∧ entry.kind = kind := by simpa using List.find?_some bound
    exact ⟨List.mem_of_find?_eq_some bound, both.2⟩
  have ofNominal {target : TypeId} (hook : resolver.table.NominalHook hooks kind target entry) :
      entry ∈ hooks.entries ∧ entry.kind = kind := by
    cases hook with
    | own _ _ bound => exact ofLookup bound
    | generic _ _ bound => exact ofLookup bound
  cases hook with
  | value _ hook => exact ofNominal hook
  | copied _ _ _ hook => exact ofNominal hook

theorem HookPath.bound {sound : TypeId → Prop} (path : HookPath hooks kind resolver sound id) :
    ∃ entry ∈ hooks.entries, entry.kind = kind := by
  induction path with
  | overridden _ hook => exact ⟨_, bound_of_overridden hook⟩
  | constituent _ _ _ _ ih => exact ih

/-- An operation for which no hook is bound is resolved only if it depends on finitely many types. -/
theorem finite_dependence_of_resolve {fuel : Nat} {operation : Operation} (ready : resolver.Ready hooks)
    (intact : resolver.Intact) (has : resolver.table.Has id) (unbound : ∀ entry ∈ hooks.entries, entry.kind ≠ kind)
    (run : resolve hooks fuel id kind resolver = .ok operation final) : (final.dependence kind id).Finite := by
  obtain ⟨-, -, -, explained⟩ := resolve_explained ready run
  obtain ⟨finalIntact, unfolds⟩ := ((intact_leadsQueries hooks).resolves fuel id kind).of_ok run intact
  cases builtIn : operation.outcome.isBuiltIn with
  | true =>
      exact (explained.unhooked builtIn).finite_dependence finalIntact.regular.toWellFormed
        (has.extends_ unfolds.extends_)
  | false =>
      obtain ⟨entry, isEntry, isKind⟩ := (explained.hookPath builtIn).bound
      exact absurd isKind (unbound entry isEntry)

end Resolver
end LifecycleHooks

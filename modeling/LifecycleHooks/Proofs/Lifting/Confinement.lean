import LifecycleHooks.Proofs.Lifting.Judging

/-!
# Confined resolvers

What depends on the type table and on the verdicts only, and is kept by judging, is kept by
every query, answered or not.  A resolver is fenced when something of that kind ensures that
the types of a ground have no constituents outside, once they are judged not to grow, and the
ground gets wider only by further verdicts.  It is confined to a set of types when the ground is
that set, whatever the verdicts are.
-/

namespace LifecycleHooks

open Attempt ResolveM Resolver TypeTable

/-- What two kinds of relations make up together is led along when both are. -/
theorem LeadsQueries.both {hooks : Registry} {first second both : Resolver → Resolver → Prop}
    (leads : LeadsQueries hooks first first) (others : LeadsQueries hooks second second)
    (join : ∀ resolver later, first resolver later → second resolver later → both resolver later) :
    LeadsQueries hooks both both := by
  have joined {Result : Type} {action : ResolveM Result} (one : action.Preserves first)
      (two : action.Preserves second) : action.Preserves both :=
    preserves_iff.mpr fun resolver => join _ _ (one.finish resolver) (two.finish resolver)
  constructor
  case toLeadsVerdicts =>
    constructor
    case bodies => exact fun id => joined (leads.bodies id) (others.bodies id)
    case constituents => exact fun id => joined (leads.constituents id) (others.constituents id)
    case unresolvable => exact fun fuel id => joined (leads.unresolvable fuel id) (others.unresolvable fuel id)
  case resolves => exact fun fuel id kind => joined (leads.resolves fuel id kind) (others.resolves fuel id kind)

namespace Resolver

section Remaining

/-- A property of resolvers at rest that depends on the table and the verdicts only, and
that judging does not end. -/
structure Remains (kept : Resolver → Prop) : Prop where
  intact : ∀ {resolver : Resolver}, kept resolver → resolver.Intact
  judging : ∀ {resolver : Resolver}, kept resolver → resolver.judging = []
  asks : ∀ {Result : Type} {action : TableM Result}, action.Preserves TypeTable.Extends →
    action.Preserves TableM.Unrolls → (onTable action).Preserves (Lasts kept)
  grows : ∀ fuel id, (growsForever fuel id).Preserves (Lasts kept)
  stands : ∀ {resolver later : Resolver}, kept resolver → later.Intact → later.table = resolver.table →
    later.growth = resolver.growth → later.judging = resolver.judging → kept later

/-- A resolver that has every remaining property of another one. -/
def Persists (resolver later : Resolver) : Prop :=
  ∀ kept, Remains kept → kept resolver → kept later

instance : IsPreorder Resolver Persists where
  refl _ _ _ holds := holds
  trans _ _ _ first second kept remains holds := second kept remains (first kept remains holds)

/-- What is neither the table nor a verdict does not matter. -/
theorem StaysIntact.persists {resolver later : Resolver} (stays : StaysIntact resolver later)
    (table : later.table = resolver.table) (growth : later.growth = resolver.growth)
    (judging : later.judging = resolver.judging) : resolver.Persists later :=
  fun _ remains holds => remains.stands holds (stays (remains.intact holds)).1 table growth judging

theorem persists_of_eq {resolver later : Resolver} (table : later.table = resolver.table)
    (growth : later.growth = resolver.growth) (judging : later.judging = resolver.judging)
    (links : later.links = resolver.links) (cycles : later.cycles = resolver.cycles) : resolver.Persists later :=
  (staysIntact_of_eq table links cycles).persists table growth judging

theorem asks_persists {Result : Type} {action : TableM Result} (extends_ : action.Preserves TypeTable.Extends)
    (unrolls : action.Preserves TableM.Unrolls) : (onTable action).Preserves Persists :=
  preserves_iff.mpr fun resolver _ remains holds => (remains.asks extends_ unrolls).finish resolver holds

theorem growsForever_persists (fuel : Nat) (id : TypeId) : (growsForever fuel id).Preserves Persists :=
  preserves_iff.mpr fun resolver _ remains holds => (remains.grows fuel id).finish resolver holds

theorem byValueParts_persists (fuel : Nat) (id : TypeId) : (byValueParts fuel id).Preserves Persists := by
  refine (growsForever_persists fuel id).bind fun grows => ?_
  split
  · exact leads_pure _
  · refine (ask_leads _).bind fun type => ?_
    split
    · exact Leads.bind (asks_persists (TableM.constituents_extends id) (TableM.constituents_unrolls id))
        fun _ => leads_pure _
    · exact leads_pure _

theorem explore_persists (fuel : Nat) (id : TypeId) : (explore fuel id).Preserves Persists := by
  induction fuel generalizing id with
  | zero => exact leads_throw _
  | succ fuel ih =>
      unfold explore
      apply Leads.bind
      · exact leads_modify fun _ => persists_of_eq rfl rfl rfl rfl rfl
      intro _
      have goesOn (parts : List TypeId) :
          (do parts.forM fun part => do
                if part ∉ (← get).visited then
                  explore fuel part
              modify fun resolver => { resolver with trail := resolver.trail.tail } :
            ResolveM Unit).Preserves Persists := by
        refine (leads_forM fun part _ => leads_get.bind fun resolver => ?_).bind fun _ =>
          leads_modify fun _ => persists_of_eq rfl rfl rfl rfl rfl
        split
        · exact ih part
        · exact leads_pure _
      refine preserves_iff.mpr fun resolver => ?_
      refine finish_bind (fun fault middle run => ?_) fun parts middle run => ?_
      · exact (byValueParts_persists fuel id).of_error run
      · have found := (byValueParts_persists fuel id).of_ok run
        have linked := (link_staysIntact (has_of_byValueParts run) parts).persists rfl rfl rfl
        exact trans_of Persists (trans_of Persists found linked) ((goesOn parts).finish _)

theorem exploreOnce_persists (fuel : Nat) (id : TypeId) : (exploreOnce fuel id).Preserves Persists := by
  refine leads_get.bind fun resolver => ?_
  split
  · exact preserves_andFinally (explore_persists fuel id) fun _ middle persists =>
      trans_of Persists persists ((settle_staysIntact middle).persists rfl rfl rfl)
  · exact leads_pure _

/-- Every query leaves a resolver with all that remains. -/
theorem persists_leadsQueries (hooks : Registry) : LeadsQueries hooks Persists Persists := by
  apply leadsQueries_of_verdicts hooks
  · constructor
    case bodies => exact fun id => asks_persists (TableM.body_extends id) (TableM.body_unrolls id)
    case constituents => exact fun id => asks_persists (TableM.constituents_extends id) (TableM.constituents_unrolls id)
    case unresolvable =>
      exact isUnresolvable_leads (fun _ _ => persists_of_eq rfl rfl rfl rfl rfl)
        (fun _ _ => persists_of_eq rfl rfl rfl rfl rfl) growsForever_persists exploreOnce_persists
  · exact fun _ _ => persists_of_eq rfl rfl rfl rfl rfl

end Remaining

section Fencing

variable {trees : Set TypeTree} {ground : Resolver → Set TypeTree} {resolver later : Resolver} {id : TypeId}

/-- What remains of a resolver keeps it among some types: it has a ground among them, which gets
wider only when it learns more, and no type of the ground has a constituent outside once it is judged
not to grow. -/
structure Encloses (trees : Set TypeTree) (ground : Resolver → Set TypeTree) (kept : Resolver → Prop) : Prop where
  remains : Remains kept
  among : ∀ {resolver : Resolver}, kept resolver → ground resolver ⊆ trees
  widens : ∀ {resolver later : Resolver}, kept resolver → kept later → resolver.Learns later →
    ground resolver ⊆ ground later
  closed : ∀ {resolver : Resolver} {id : TypeId}, kept resolver → resolver.Judged id false →
    resolver.table.Within (ground resolver) id →
    ∀ part ∈ resolver.table.constituentTrees (resolver.table.tree id), part ∈ ground resolver

/-- A resolver that is kept among some types. -/
def Fenced (trees : Set TypeTree) (ground : Resolver → Set TypeTree) (resolver : Resolver) : Prop :=
  ∃ kept, Encloses trees ground kept ∧ kept resolver

theorem Fenced.intact (fenced : resolver.Fenced trees ground) : resolver.Intact := by
  obtain ⟨_, encloses, holds⟩ := fenced
  exact encloses.remains.intact holds

theorem Fenced.judging (fenced : resolver.Fenced trees ground) : resolver.judging = [] := by
  obtain ⟨_, encloses, holds⟩ := fenced
  exact encloses.remains.judging holds

theorem Fenced.among (fenced : resolver.Fenced trees ground) : ground resolver ⊆ trees := by
  obtain ⟨_, encloses, holds⟩ := fenced
  exact encloses.among holds

theorem Fenced.closed (fenced : resolver.Fenced trees ground) (judged : resolver.Judged id false)
    (inside : resolver.table.Within (ground resolver) id) :
    ∀ part ∈ resolver.table.constituentTrees (resolver.table.tree id), part ∈ ground resolver := by
  obtain ⟨_, encloses, holds⟩ := fenced
  exact encloses.closed holds judged inside

/-- A resolver that is fenced if another one is, and whose ground is no smaller. -/
def StaysFenced (trees : Set TypeTree) (ground : Resolver → Set TypeTree) (resolver later : Resolver) : Prop :=
  resolver.Fenced trees ground → later.Fenced trees ground ∧ ground resolver ⊆ ground later ∧
    ∀ id, resolver.table.Within (ground resolver) id → later.table.Within (ground later) id

instance (trees : Set TypeTree) (ground : Resolver → Set TypeTree) : IsPreorder Resolver (StaysFenced trees ground) where
  refl _ fenced := ⟨fenced, subset_rfl, fun _ inside => inside⟩
  trans _ _ _ first second fenced := by
    obtain ⟨middle, wider, before⟩ := first fenced
    obtain ⟨later, widest, behind⟩ := second middle
    exact ⟨later, wider.trans widest, fun id inside => behind id (before id inside)⟩

theorem Persists.staysFenced (persists : resolver.Persists later) (learns : resolver.Learns later) :
    StaysFenced trees ground resolver later := by
  intro fenced
  have wellFormed := fenced.intact.regular.toWellFormed
  obtain ⟨kept, encloses, holds⟩ := fenced
  have stillHolds := persists kept encloses.remains holds
  have wider := encloses.widens holds stillHolds learns
  refine ⟨⟨kept, encloses, stillHolds⟩, wider, fun id inside => ?_⟩
  exact wellFormed.within_extends learns.table ⟨inside.1, wider inside.2⟩

theorem fenced_leadsQueries (hooks : Registry) (trees : Set TypeTree) (ground : Resolver → Set TypeTree) :
    LeadsQueries hooks (StaysFenced trees ground) (StaysFenced trees ground) :=
  (persists_leadsQueries hooks).both (extends_leadsQueries hooks) fun _ _ persists extends_ =>
    persists.staysFenced extends_.toLearns

theorem growsForever_staysFenced (trees : Set TypeTree) (ground : Resolver → Set TypeTree) (fuel : Nat) (id : TypeId) :
    (growsForever fuel id).Preserves (StaysFenced trees ground) :=
  preserves_iff.mpr fun resolver =>
    ((growsForever_persists fuel id).finish resolver).staysFenced
      ((growsForever_judges fuel id).finish resolver).toLearns

theorem exploreOnce_staysFenced (trees : Set TypeTree) (ground : Resolver → Set TypeTree) (fuel : Nat) (id : TypeId) :
    (exploreOnce fuel id).Preserves (StaysFenced trees ground) :=
  preserves_iff.mpr fun resolver =>
    ((exploreOnce_persists fuel id).finish resolver).staysFenced
      ((exploreOnce_consults fuel id).finish resolver).toLearns

end Fencing

section Confining

variable {trees : Set TypeTree} {resolver later : Resolver} {id : TypeId}

/-- A type that is judged not to grow, at once or after some queries. -/
def Spared (resolver : Resolver) (id : TypeId) : Prop :=
  ∃ later : Resolver, resolver.Persists later ∧ resolver.table.Extends later.table ∧ later.Judged id false

/-- A resolver that is held to a set of types: something that remains ensures that no type
of the set has a constituent outside, once it is judged not to grow. -/
def Confined (trees : Set TypeTree) (resolver : Resolver) : Prop :=
  ∃ kept, Remains kept ∧ kept resolver ∧ ∀ (later : Resolver) (id : TypeId), kept later → later.Judged id false →
    later.table.Within trees id → ∀ part ∈ later.table.constituentTrees (later.table.tree id), part ∈ trees

/-- A resolver is confined to a set when the set is its ground, whatever it learns. -/
theorem confined_iff : resolver.Confined trees ↔ resolver.Fenced trees fun _ => trees := by
  constructor
  · rintro ⟨kept, remains, holds, closed⟩
    exact ⟨kept, ⟨remains, fun _ => subset_rfl, fun _ _ _ => subset_rfl, fun holds => closed _ _ holds⟩, holds⟩
  · rintro ⟨kept, encloses, holds⟩
    exact ⟨kept, encloses.remains, holds, fun _ _ => encloses.closed⟩

theorem Confined.intact (confined : resolver.Confined trees) : resolver.Intact :=
  (confined_iff.mp confined).intact

theorem Confined.closed (confined : resolver.Confined trees) (spared : resolver.Spared id)
    (within : resolver.table.Within trees id) :
    ∀ part ∈ resolver.table.constituentTrees (resolver.table.tree id), part ∈ trees := by
  have wellFormed := confined.intact.regular.toWellFormed
  obtain ⟨kept, remains, holds, closed⟩ := confined
  obtain ⟨later, persists, extends_, judged⟩ := spared
  rw [← wellFormed.constituentTrees_extends extends_ within.1]
  exact closed later id (persists kept remains holds) judged (wellFormed.within_extends extends_ within)

end Confining
end Resolver
end LifecycleHooks

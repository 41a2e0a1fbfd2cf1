import LifecycleHooks.Handoff
import LifecycleHooks.Proofs.Attempt

/-!
# Searching the type graph

The search for growth, the search for a hook and the search for shared storage have
one form: pending types are visited in turn, each at most once, and a visit either
ends the search or tells which types are to be visited next.
-/

namespace LifecycleHooks
namespace ResolveM

open Attempt

/-- Visit the pending types, and what the visits lead to, until a visit ends the
search.  The answer is whether one did. -/
def search (visit : Nat → TypeId → ResolveM (Option (List TypeId))) :
    (fuel : Nat) → (seen pending : List TypeId) → ResolveM Bool
  | 0, _, _ => throw .exhausted
  | _ + 1, _, [] => return false
  | fuel + 1, seen, id :: pending => do
      if id ∈ seen then
        search visit fuel seen pending
      else
        match ← visit fuel id with
        | none => return true
        | some next => search visit fuel (id :: seen) (next ++ pending)

/-- The types of slots, the last one first. -/
def typesBackwards (slots : List Slot) : List TypeId := (slots.map Slot.type).reverse

@[simp]
theorem mem_typesBackwards {slots : List Slot} {id : TypeId} :
    id ∈ typesBackwards slots ↔ ∃ slot ∈ slots, slot.type = id := by
  simp [typesBackwards]

/-- Whether the search for growth goes on behind a type.  Instances of other
objects that grow, or that are being judged, are left out. -/
def isFollowed (head : TypeId) (fuel : Nat) (id : TypeId) : ResolveM Bool := do
  match ← fetch id with
  | .applied other _ =>
      if other = head then
        return true
      else if other ∈ (← get).judging then
        return false
      else
        return !(← growsForever fuel id)
  | _ => return true

/-- What the search for growth does with a type that it follows: it ends at one that nests too deeply,
and goes on with the constituents of any other. -/
def openType (id : TypeId) : ResolveM (Option (List TypeId)) := do
  if ← isTooDeep id then
    return none
  else
    return some (typesBackwards (← onTable (TableM.constituents id)))

theorem known?_bind_run {Result : Type} (id : TypeId) (kind : OpKind) (next : Option Outcome → ResolveM Result)
    (resolver : Resolver) :
    (known? id kind >>= next) resolver = next (resolver.operations.lookup (id, kind)) resolver :=
  rfl

theorem finish_known?_bind {Result : Type} (id : TypeId) (kind : OpKind) (next : Option Outcome → ResolveM Result)
    (resolver : Resolver) : (known? id kind >>= next).finish resolver =
      (next (resolver.operations.lookup (id, kind))).finish resolver :=
  rfl

/-- A visit of the search for growth. -/
def visitForGrowth (head : TypeId) (fuel : Nat) (id : TypeId) :
    ResolveM (Option (List TypeId)) := do
  if ← isFollowed head fuel id then
    if ← isTooDeep id then
      return none
    else
      return some (typesBackwards (← onTable (TableM.constituents id)))
  else
    return some []

/-- A visit of the search for a hook. -/
def visitForHook (hooks : Registry) (kind : OpKind) (fuel : Nat) (id : TypeId) :
    ResolveM (Option (List TypeId)) := do
  if ← isUnresolvable fuel id then
    return some []
  else
    match ← known? id kind with
    | some outcome => return if outcome.isBuiltIn then some [] else none
    | none =>
        if (← ask (·.governingHook? hooks id kind)).isSome then
          return none
        else
          return some (typesBackwards (← relevantSlots id kind))

/-- A visit of the search for shared storage. -/
def visitForStorage (fuel : Nat) (id : TypeId) : ResolveM (Option (List TypeId)) := do
  if ← isUnresolvable fuel id then
    return some []
  else if (← fetch id).isSharedStorage then
    return none
  else
    return some (typesBackwards (← onTable (TableM.constituents id)))

theorem searchGrowth_eq_search (head : TypeId) (fuel : Nat) (seen pending : List TypeId) :
    searchGrowth fuel head seen pending = search (visitForGrowth head) fuel seen pending := by
  induction fuel generalizing seen pending with
  | zero => rw [searchGrowth, search]
  | succ fuel ih =>
      cases pending with
      | nil => rw [searchGrowth, search]
      | cons id pending =>
          rw [searchGrowth, search]
          by_cases member : id ∈ seen
          · rw [if_pos member, if_pos member]
            exact ih seen pending
          · rw [if_neg member, if_neg member]
            simp only [ih, visitForGrowth, isFollowed, bind_assoc]
            refine bind_congr fun type => ?_
            have goesOn (follow : Bool) :
                (if (!follow) = true then search (visitForGrowth head) fuel (id :: seen) pending
                  else do
                    if ← isTooDeep id then
                      return true
                    else do
                      let slots ← onTable (TableM.constituents id)
                      search (visitForGrowth head) fuel (id :: seen)
                        ((slots.map Slot.type).reverse ++ pending)) =
                  ((do
                    if follow then
                      if ← isTooDeep id then
                        return none
                      else
                        return some (typesBackwards (← onTable (TableM.constituents id)))
                    else
                      return some []) : ResolveM (Option (List TypeId))) >>= fun found =>
                    match found with
                    | none => return true
                    | some next => search (visitForGrowth head) fuel (id :: seen)
                        (next ++ pending) := by
              cases follow with
              | false => simp
              | true =>
                  simp only [Bool.not_true, Bool.false_eq_true, if_false, if_true, bind_assoc]
                  refine bind_congr fun tooDeep => ?_
                  cases tooDeep <;> simp [typesBackwards]
            cases type with
            | applied other args =>
                by_cases same : other = head
                · simpa [same] using goesOn true
                · simp only [same, if_false, bind_assoc]
                  refine bind_congr fun resolver => ?_
                  by_cases judged : other ∈ resolver.judging
                  · simp [judged]
                  · simp only [judged, if_false, bind_assoc]
                    refine bind_congr fun grows => ?_
                    simpa using goesOn (!grows)
            | _ => simpa using goesOn true

theorem searchHook_eq_search (hooks : Registry) (kind : OpKind) (fuel : Nat)
    (seen pending : List TypeId) :
    searchHook hooks kind fuel seen pending = search (visitForHook hooks kind) fuel seen pending := by
  induction fuel generalizing seen pending with
  | zero => rw [searchHook, search]
  | succ fuel ih =>
      cases pending with
      | nil => rw [searchHook, search]
      | cons id pending =>
          rw [searchHook, search]
          simp only [ih, visitForHook, bind_assoc]
          refine if_congr Iff.rfl rfl (bind_congr fun unresolvable => ?_)
          cases unresolvable with
          | true => simp
          | false =>
              simp only [Bool.false_eq_true, if_false, bind_assoc]
              refine bind_congr fun known => ?_
              cases known with
              | some outcome => cases builtIn : outcome.isBuiltIn <;> simp [builtIn]
              | none =>
                  simp only [bind_assoc]
                  refine bind_congr fun entry => ?_
                  cases entry <;> simp [typesBackwards]

theorem searchStorage_eq_search (fuel : Nat) (seen pending : List TypeId) :
    searchStorage fuel seen pending = search visitForStorage fuel seen pending := by
  induction fuel generalizing seen pending with
  | zero => rw [searchStorage, search]
  | succ fuel ih =>
      cases pending with
      | nil => rw [searchStorage, search]
      | cons id pending =>
          rw [searchStorage, search]
          simp only [ih, visitForStorage, bind_assoc]
          refine if_congr Iff.rfl rfl (bind_congr fun unresolvable => ?_)
          cases unresolvable with
          | true => simp
          | false =>
              simp only [Bool.false_eq_true, if_false, bind_assoc]
              refine bind_congr fun type => ?_
              cases type.isSharedStorage <;> simp [typesBackwards]

theorem search_leads {visit : Nat → TypeId → ResolveM (Option (List TypeId))}
    {done failed : Resolver → Resolver → Prop} [IsLead done failed] {fuel : Nat}
    (visits : ∀ less < fuel, ∀ id, (visit less id).Leads done failed) (seen pending : List TypeId) :
    (search visit fuel seen pending).Leads done failed := by
  induction fuel generalizing seen pending with
  | zero => exact leads_throw _
  | succ fuel ih =>
      have rest := ih fun less bound => visits less (by omega)
      cases pending with
      | nil => exact leads_pure _
      | cons id pending =>
          rw [search]
          split
          · exact rest seen pending
          · refine (visits fuel (by omega) id).bind fun found => ?_
            cases found with
            | none => exact leads_pure _
            | some next => exact rest (id :: seen) (next ++ pending)

section Outcomes

variable {visit : Nat → TypeId → ResolveM (Option (List TypeId))}
  {relation : Resolver → Resolver → Prop} [IsPreorder Resolver relation]
  {invariant : Resolver → Prop} {inside : Resolver → TypeId → Prop}
  {fuel : Nat} {seen pending : List TypeId} {resolver final : Resolver}

/-- Visits to the types of a place lead along a relation, keep an invariant and lead on to
types of the place. -/
structure Roams (visit : Nat → TypeId → ResolveM (Option (List TypeId))) (relation : Resolver → Resolver → Prop)
    (invariant : Resolver → Prop) (inside : Resolver → TypeId → Prop) (bound : Nat) : Prop where
  leads : ∀ less < bound, ∀ id resolver, invariant resolver → inside resolver id →
    relation resolver ((visit less id).finish resolver) ∧ invariant ((visit less id).finish resolver)
  goesOn : ∀ less < bound, ∀ id resolver next later, invariant resolver → inside resolver id →
    visit less id resolver = .ok (some next) later → ∀ other ∈ next, inside later other
  stays : ∀ resolver later id, relation resolver later → inside resolver id → inside later id

omit [IsPreorder Resolver relation] in
/-- Where all visits lead along a relation, there is no need of a place. -/
theorem roams_of_preserves {bound : Nat} (visits : ∀ fuel id, (visit fuel id).Preserves relation)
    (keeps : ∀ resolver later, invariant resolver → relation resolver later → invariant later) :
    Roams visit relation invariant (fun _ _ => True) bound where
  leads less _ id resolver holds _ :=
    ⟨(visits less id).finish resolver, keeps _ _ holds ((visits less id).finish resolver)⟩
  goesOn _ _ _ _ _ _ _ _ _ _ _ := trivial
  stays _ _ _ _ _ := trivial

omit [IsPreorder Resolver relation] in
theorem Roams.fewer {bound : Nat} (roams : Roams visit relation invariant inside (bound + 1)) :
    Roams visit relation invariant inside bound where
  leads less below := roams.leads less (by omega)
  goesOn less below := roams.goesOn less (by omega)
  stays := roams.stays

omit [IsPreorder Resolver relation] in
/-- A visit that goes on leaves everything that is pending inside the place. -/
theorem Roams.afterVisit {bound : Nat} {id : TypeId} {next : List TypeId}
    (roams : Roams visit relation invariant inside (bound + 1)) (holds : invariant resolver)
    (pendingInside : ∀ other ∈ id :: pending, inside resolver other)
    (run : visit bound id resolver = .ok (some next) final) :
    relation resolver final ∧ invariant final ∧ ∀ other ∈ next ++ pending, inside final other := by
  obtain ⟨first, others⟩ := List.forall_mem_cons.mp pendingInside
  obtain ⟨related, onwards⟩ := roams.leads bound (by omega) id resolver holds first
  rw [finish_of_ok run] at related onwards
  refine ⟨related, onwards, List.forall_mem_append.mpr ⟨?_, ?_⟩⟩
  · exact roams.goesOn bound (by omega) id resolver next final holds first run
  · exact fun other member => roams.stays _ _ other related (others other member)

/-- A search leads along the relation and keeps the invariant, whether or not it fails. -/
theorem Roams.search (roams : Roams visit relation invariant inside fuel) (holds : invariant resolver)
    (pendingInside : ∀ id ∈ pending, inside resolver id) :
    relation resolver ((search visit fuel seen pending).finish resolver) ∧
      invariant ((search visit fuel seen pending).finish resolver) := by
  induction fuel generalizing seen pending resolver with
  | zero => exact ⟨refl_of relation resolver, holds⟩
  | succ fuel ih =>
      cases pending with
      | nil => exact ⟨refl_of relation resolver, holds⟩
      | cons id pending =>
          rw [ResolveM.search]
          split
          · exact ih roams.fewer holds (List.forall_mem_cons.mp pendingInside).2
          · have first := (List.forall_mem_cons.mp pendingInside).1
            have visited := roams.leads fuel (by omega) id resolver holds first
            let kept (later : Resolver) : Prop := relation resolver later ∧ invariant later
            change kept (finish _ resolver)
            refine finish_bind (fun _ middle run => ?_) fun found middle run => ?_
            · rwa [finish_of_error run] at visited
            · cases found with
              | none => rwa [finish_of_ok run] at visited
              | some next =>
                  obtain ⟨related, onwards, nowInside⟩ := roams.afterVisit holds pendingInside run
                  obtain ⟨further, last⟩ := ih roams.fewer onwards nowInside
                  exact ⟨trans_of relation related further, last⟩

/-- A search that ends early has found a type of the kind searched for behind a
pending one, when such a type ends each visit to it, and when whatever leads to one
is of that kind too. -/
theorem search_found {goal : Resolver → TypeId → Prop} (roams : Roams visit relation invariant inside fuel)
    (ends : ∀ less id resolver final, less < fuel → invariant resolver → inside resolver id →
      visit less id resolver = .ok none final → goal final id)
    (passes : ∀ less id next resolver middle later, less < fuel → invariant resolver → inside resolver id →
      visit less id resolver = .ok (some next) middle → relation middle later →
      ∀ other ∈ next, goal later other → goal later id)
    (holds : invariant resolver) (pendingInside : ∀ id ∈ pending, inside resolver id)
    (run : search visit fuel seen pending resolver = .ok true final) :
    ∃ id ∈ pending, goal final id := by
  induction fuel generalizing seen pending resolver with
  | zero => cases run
  | succ fuel ih =>
      have onFewer {seen pending : List TypeId} {resolver : Resolver} (holds : invariant resolver)
          (pendingInside : ∀ id ∈ pending, inside resolver id)
          (run : search visit fuel seen pending resolver = .ok true final) : ∃ id ∈ pending, goal final id :=
        ih roams.fewer (fun less id resolver final below => ends less id resolver final (by omega))
          (fun less id next resolver middle later below => passes less id next resolver middle later (by omega))
          holds pendingInside run
      cases pending with
      | nil => cases run
      | cons id pending =>
          obtain ⟨first, others⟩ := List.forall_mem_cons.mp pendingInside
          rw [ResolveM.search] at run
          split at run
          · obtain ⟨other, member, found⟩ := onFewer holds others run
            exact ⟨other, List.mem_cons_of_mem id member, found⟩
          · obtain ⟨answer, middle, visited, rest⟩ := bind_eq_ok.mp run
            cases answer with
            | none =>
                obtain ⟨_, rfl⟩ := EStateM.Result.ok.inj rest
                exact ⟨id, List.mem_cons_self, ends fuel id resolver _ (by omega) holds first visited⟩
            | some next =>
                obtain ⟨_, onwards, nowInside⟩ := roams.afterVisit holds pendingInside visited
                obtain ⟨other, member, found⟩ := onFewer onwards nowInside rest
                rcases List.mem_append.mp member with behind | beside
                · obtain ⟨searched, _⟩ := roams.fewer.search onwards nowInside
                  rw [finish_of_ok rest] at searched
                  exact ⟨id, List.mem_cons_self,
                    passes fuel id next resolver middle _ (by omega) holds first visited searched other behind found⟩
                · exact ⟨other, List.mem_cons_of_mem id beside, found⟩

/-- A search that does not end early has passed all types that it came upon. -/
theorem search_exhausted {passed : Resolver → TypeId → List TypeId → Prop}
    (roams : Roams visit relation invariant inside fuel)
    (passes : ∀ less id next resolver middle later, less < fuel → invariant resolver → inside resolver id →
      visit less id resolver = .ok (some next) middle → relation middle later →
      passed later id next)
    (holds : invariant resolver) (pendingInside : ∀ id ∈ pending, inside resolver id)
    (run : search visit fuel seen pending resolver = .ok false final) :
    ∃ region : List TypeId, (∀ id ∈ pending, id ∈ seen ∨ id ∈ region) ∧
      ∀ id ∈ region, ∃ next, passed final id next ∧ ∀ other ∈ next, other ∈ seen ∨ other ∈ region := by
  induction fuel generalizing seen pending resolver with
  | zero => cases run
  | succ fuel ih =>
      have onFewer {seen pending : List TypeId} {resolver : Resolver} (holds : invariant resolver)
          (pendingInside : ∀ id ∈ pending, inside resolver id)
          (run : search visit fuel seen pending resolver = .ok false final) :
          ∃ region : List TypeId, (∀ id ∈ pending, id ∈ seen ∨ id ∈ region) ∧
            ∀ id ∈ region, ∃ next, passed final id next ∧ ∀ other ∈ next, other ∈ seen ∨ other ∈ region :=
        ih roams.fewer
          (fun less id next resolver middle later below => passes less id next resolver middle later (by omega))
          holds pendingInside run
      cases pending with
      | nil => exact ⟨[], by simp, by simp⟩
      | cons id pending =>
          obtain ⟨first, others⟩ := List.forall_mem_cons.mp pendingInside
          rw [ResolveM.search] at run
          split at run
          · rename_i before
            obtain ⟨region, covers, closed⟩ := onFewer holds others run
            refine ⟨region, fun other member => ?_, closed⟩
            rcases List.mem_cons.mp member with rfl | beside
            · exact .inl before
            · exact covers other beside
          · obtain ⟨answer, middle, visited, rest⟩ := bind_eq_ok.mp run
            cases answer with
            | none => cases rest
            | some next =>
                obtain ⟨_, onwards, nowInside⟩ := roams.afterVisit holds pendingInside visited
                obtain ⟨region, covers, closed⟩ := onFewer onwards nowInside rest
                obtain ⟨searched, _⟩ := roams.fewer.search onwards nowInside
                rw [finish_of_ok rest] at searched
                -- A type seen is seen before or it is the one visited now.
                have moves {other : TypeId} (inside : other ∈ id :: seen ∨ other ∈ region) :
                    other ∈ seen ∨ other ∈ id :: region := by
                  rcases inside with inSeen | inRegion
                  · rcases List.mem_cons.mp inSeen with rfl | before
                    · exact .inr List.mem_cons_self
                    · exact .inl before
                  · exact .inr (List.mem_cons_of_mem id inRegion)
                refine ⟨id :: region, fun other member => ?_, fun other member => ?_⟩
                · rcases List.mem_cons.mp member with rfl | beside
                  · exact .inr List.mem_cons_self
                  · exact moves (covers other (List.mem_append_right next beside))
                · rcases List.mem_cons.mp member with rfl | inRegion
                  · exact ⟨next, passes fuel other next resolver middle _ (by omega) holds first visited searched,
                      fun further behind => moves (covers further (List.mem_append_left _ behind))⟩
                  · obtain ⟨others, passedBy, leads⟩ := closed other inRegion
                    exact ⟨others, passedBy, fun further behind => moves (leads further behind)⟩

end Outcomes
end ResolveM
end LifecycleHooks

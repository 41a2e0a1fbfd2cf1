import LifecycleHooks.Lifting.Containment
import Mathlib.Logic.Relation

/-!
# Reachability along links

The search along links finds exactly the types that can be reached.  Each step takes
one target of a link off the pending ones, so that the number of all targets bounds
the number of steps.
-/

namespace LifecycleHooks

/-- One link leads from a type to another one. -/
def Linked (links : List (TypeId × List TypeId)) (id other : TypeId) : Prop :=
  other ∈ (links.lookup id).getD []

/-- The number of targets of the links of types that were not seen. -/
def openTargets (links : List (TypeId × List TypeId)) (seen : List TypeId) : Nat :=
  ((links.filter (·.1 ∉ seen)).flatMap Prod.snd).length

theorem openTargets_cons (link : TypeId × List TypeId) (links : List (TypeId × List TypeId))
    (seen : List TypeId) :
    openTargets (link :: links) seen =
      (if link.1 ∈ seen then 0 else link.2.length) + openTargets links seen := by
  by_cases member : link.1 ∈ seen <;> simp [openTargets, member]

theorem openTargets_seen_le (links : List (TypeId × List TypeId)) (id : TypeId)
    (seen : List TypeId) : openTargets links (id :: seen) ≤ openTargets links seen := by
  induction links with
  | nil => simp [openTargets]
  | cons link links ih =>
      rw [openTargets_cons, openTargets_cons]
      by_cases member : link.1 ∈ seen
      · simpa [member] using ih
      · by_cases same : link.1 = id
        · simp only [same, List.mem_cons_self, if_true]
          omega
        · simpa [member, same] using ih

/-- Seeing a type for the first time closes its targets. -/
theorem openTargets_see {links : List (TypeId × List TypeId)} {id : TypeId} {seen : List TypeId}
    (new : id ∉ seen) :
    ((links.lookup id).getD []).length + openTargets links (id :: seen) ≤
      openTargets links seen := by
  induction links with
  | nil => simp [openTargets]
  | cons link links ih =>
      rw [openTargets_cons, openTargets_cons]
      by_cases same : link.1 = id
      · have fewer := openTargets_seen_le links id seen
        have found : (link :: links).lookup id = some link.2 := by
          obtain ⟨source, targets⟩ := link
          simp only at same
          subst same
          simp
        rw [found, if_pos (by simp [same]), if_neg (by simpa [same] using new)]
        simp only [Option.getD_some]
        omega
      · have passed : (link :: links).lookup id = links.lookup id := by
          obtain ⟨source, targets⟩ := link
          rw [List.lookup_cons, beq_false_of_ne (Ne.symm same)]
        rw [passed]
        by_cases member : link.1 ∈ seen
        · simpa [member] using ih
        · simp only [List.mem_cons, same, member, or_self, if_false]
          omega

/-- The search keeps what was seen, finds what is pending, and is closed under links. -/
theorem reachAlong_closed {links : List (TypeId × List TypeId)} {fuel : Nat}
    {seen pending : List TypeId} (enough : pending.length + openTargets links seen < fuel)
    (closed : ∀ id ∈ seen, ∀ other, Linked links id other → other ∈ seen ∨ other ∈ pending) :
    (∀ id, id ∈ seen ∨ id ∈ pending → id ∈ reachAlong links fuel seen pending) ∧
      ∀ id ∈ reachAlong links fuel seen pending, ∀ other, Linked links id other →
        other ∈ reachAlong links fuel seen pending := by
  induction fuel generalizing seen pending with
  | zero => omega
  | succ fuel ih =>
      cases pending with
      | nil =>
          rw [reachAlong]
          refine ⟨by simp, fun id member other linked => ?_⟩
          simpa using closed id member other linked
      | cons id pending =>
          rw [List.length_cons] at enough
          rw [reachAlong]
          split
          · rename_i before
            have stillClosed : ∀ source ∈ seen, ∀ other, Linked links source other →
                other ∈ seen ∨ other ∈ pending := by
              intro source member other linked
              rcases closed source member other linked with inSeen | inPending
              · exact .inl inSeen
              · rcases List.mem_cons.mp inPending with rfl | beside
                · exact .inl before
                · exact .inr beside
            obtain ⟨finds, isClosed⟩ := ih (by omega) stillClosed
            refine ⟨fun other member => finds other ?_, isClosed⟩
            rcases member with inSeen | inPending
            · exact .inl inSeen
            · rcases List.mem_cons.mp inPending with rfl | beside
              · exact .inl before
              · exact .inr beside
          · rename_i new
            have fewer : ((links.lookup id).getD []).length + openTargets links (id :: seen) ≤
                openTargets links seen := openTargets_see new
            have stillClosed : ∀ source ∈ id :: seen, ∀ other, Linked links source other →
                other ∈ id :: seen ∨ other ∈ (links.lookup id).getD [] ++ pending := by
              intro source member other linked
              rcases List.mem_cons.mp member with rfl | inSeen
              · exact .inr (List.mem_append_left _ linked)
              · rcases closed source inSeen other linked with before | inPending
                · exact .inl (List.mem_cons_of_mem id before)
                · rcases List.mem_cons.mp inPending with rfl | beside
                  · exact .inl List.mem_cons_self
                  · exact .inr (List.mem_append_right _ beside)
            obtain ⟨finds, isClosed⟩ := ih (by rw [List.length_append]; omega) stillClosed
            refine ⟨fun other member => finds other ?_, isClosed⟩
            rcases member with inSeen | inPending
            · exact .inl (List.mem_cons_of_mem id inSeen)
            · rcases List.mem_cons.mp inPending with rfl | beside
              · exact .inl List.mem_cons_self
              · exact .inr (List.mem_append_right _ beside)

/-- The search finds nothing but what was seen or lies behind a pending type. -/
theorem reachAlong_sound {links : List (TypeId × List TypeId)} {fuel : Nat}
    {seen pending : List TypeId} {found : TypeId}
    (member : found ∈ reachAlong links fuel seen pending) :
    found ∈ seen ∨ ∃ id ∈ pending, Relation.ReflTransGen (Linked links) id found := by
  induction fuel generalizing seen pending with
  | zero => exact .inl member
  | succ fuel ih =>
      cases pending with
      | nil => exact .inl member
      | cons id pending =>
          rw [reachAlong] at member
          split at member
          · rcases ih member with inSeen | ⟨other, inPending, path⟩
            · exact .inl inSeen
            · exact .inr ⟨other, List.mem_cons_of_mem id inPending, path⟩
          · rcases ih member with inSeen | ⟨other, inNext, path⟩
            · rcases List.mem_cons.mp inSeen with rfl | before
              · exact .inr ⟨found, List.mem_cons_self, .refl⟩
              · exact .inl before
            · rcases List.mem_append.mp inNext with linked | inPending
              · exact .inr ⟨id, List.mem_cons_self, .head linked path⟩
              · exact .inr ⟨other, List.mem_cons_of_mem id inPending, path⟩

/-- The types found from a type are those that one link or more lead to. -/
theorem mem_reachable {links : List (TypeId × List TypeId)} {id other : TypeId} :
    other ∈ reachable links id ↔ Relation.TransGen (Linked links) id other := by
  unfold reachable
  constructor
  · intro member
    rcases reachAlong_sound member with inSeen | ⟨first, linked, path⟩
    · cases inSeen
    · exact .head' linked path
  · intro path
    have all : openTargets links [] = (links.flatMap Prod.snd).length := by
      rw [openTargets, List.filter_eq_self.mpr (by simp)]
    have enough : ((links.lookup id).getD []).length + openTargets links [] <
        (links.flatMap Prod.snd).length + ((links.lookup id).getD []).length + 1 := by omega
    obtain ⟨finds, isClosed⟩ := reachAlong_closed enough (by simp)
    induction path with
    | single linked => exact finds _ (.inr linked)
    | tail path linked ih => exact isClosed _ ih _ linked

end LifecycleHooks

import LifecycleHooks.Proofs.Lifting.Judging

/-!
# Reasons for verdicts

The search for growth goes on behind the instances of its own object and behind those of
objects that were judged not to grow.  An object is judged to grow for an instance ahead
that nests too deeply, and judged not to grow when there is none and everything ahead was
judged.  Such reasons last.  Where objects are layered, they never speak both ways.
-/

namespace LifecycleHooks

open Attempt ResolveM TypeTable

variable {table : TypeTable} {verdicts later : List (TypeId × Bool)} {head : TypeId} {tree : TypeTree}
  {layer : TypeId → Nat}

/-- The search for growth of an object goes on behind a type. -/
def Opens (verdicts : List (TypeId × Bool)) (head : TypeId) (tree : TypeTree) : Prop :=
  ∀ other, tree.instance? = some other → other = head ∨ verdicts.lookup other = some false

/-- The types that lie ahead of a type, where the search goes on. -/
def Ahead (table : TypeTable) (verdicts : List (TypeId × Bool)) (head : TypeId) : TypeTree → TypeTree → Prop :=
  Relation.ReflTransGen fun owner part => Opens verdicts head owner ∧ part ∈ table.constituentTrees owner

/-- An instance that nests so deeply that the object counts as growing. -/
def TooDeep (tree : TypeTree) : Prop :=
  tree.instance?.isSome = true ∧ nestingLimit < tree.depth

/-- Why an object was judged to grow, or judged not to grow. -/
inductive Reason (table : TypeTable) (verdicts : List (TypeId × Bool)) (head : TypeId) : Bool → Prop where
  | grows {tree : TypeTree} (ahead : Ahead table verdicts head (table.tree head) tree)
      (opens : Opens verdicts head tree) (deep : TooDeep tree) : Reason table verdicts head true
  | bounded
      (judged : ∀ tree, Ahead table verdicts head (table.tree head) tree → ∀ other, tree.instance? = some other →
        other = head ∨ ∃ grows, verdicts.lookup other = some grows)
      (shallow : ∀ tree, Ahead table verdicts head (table.tree head) tree → Opens verdicts head tree → ¬ TooDeep tree) :
      Reason table verdicts head false

section Lasting

variable (known : ∀ other grows, verdicts.lookup other = some grows → later.lookup other = some grows)

include known

theorem Opens.mono (opens : Opens verdicts head tree) : Opens later head tree :=
  fun other isInstance => (opens other isInstance).imp_right (known other false)

theorem Ahead.mono {start : TypeTree} (ahead : Ahead table verdicts head start tree) :
    Ahead table later head start tree := by
  refine Relation.ReflTransGen.mono (fun owner part step => ?_) _ _ ahead
  exact ⟨step.1.mono known, step.2⟩

/-- Where everything ahead was judged, further verdicts open nothing. -/
theorem Ahead.earlier
    (judged : ∀ tree, Ahead table verdicts head (table.tree head) tree → ∀ other, tree.instance? = some other →
      other = head ∨ ∃ grows, verdicts.lookup other = some grows)
    (ahead : Ahead table later head (table.tree head) tree) :
    Ahead table verdicts head (table.tree head) tree := by
  induction ahead with
  | refl => exact .refl
  | tail _ step ih =>
      refine ih.tail ⟨fun other isInstance => ?_, step.2⟩
      obtain own | ⟨grows, isJudged⟩ := judged _ ih other isInstance
      · exact .inl own
      · refine (step.1 other isInstance).imp_right fun spared => ?_
        obtain rfl := Option.some.inj ((known other grows isJudged).symm.trans spared)
        exact isJudged

theorem Reason.mono {grows : Bool} (reason : Reason table verdicts head grows) : Reason table later head grows := by
  cases reason with
  | grows ahead opens deep => exact .grows (ahead.mono known) (opens.mono known) deep
  | bounded judged shallow =>
      refine .bounded (fun tree ahead other isInstance => ?_) fun tree ahead opens => ?_
      · obtain own | ⟨grows, isJudged⟩ := judged tree (ahead.earlier known judged) other isInstance
        · exact .inl own
        · exact .inr ⟨grows, known other grows isJudged⟩
      · have before := ahead.earlier known judged
        refine shallow tree before fun other isInstance => ?_
        obtain own | ⟨grows, isJudged⟩ := judged tree before other isInstance
        · exact .inl own
        · refine (opens other isInstance).imp_right fun spared => ?_
          obtain rfl := Option.some.inj ((known other grows isJudged).symm.trans spared)
          exact isJudged

end Lasting

theorem Reason.unique {grows other : Bool} (reason : Reason table verdicts head grows)
    (otherwise : Reason table verdicts head other) : grows = other := by
  cases reason with
  | grows ahead opens deep =>
      cases otherwise with
      | grows => rfl
      | bounded _ shallow => exact absurd deep (shallow _ ahead opens)
  | bounded _ shallow =>
      cases otherwise with
      | grows ahead opens deep => exact absurd deep (shallow _ ahead opens)
      | bounded => rfl

theorem Ahead.mem_contents (ahead : Ahead table verdicts head (table.tree head) tree) :
    tree ∈ table.contents head :=
  Relation.ReflTransGen.mono (fun _ _ step => step.2) _ _ ahead

/-- Every verdict is on a declared object and has a reason. -/
def Justified (table : TypeTable) (verdicts : List (TypeId × Bool)) : Prop :=
  ∀ head grows, verdicts.lookup head = some grows → head ∈ table.objects ∧ Reason table verdicts head grows

theorem Justified.cons {verdicts : List (TypeId × Bool)} {grows : Bool} (justified : Justified table verdicts)
    (isObject : head ∈ table.objects) (reason : Reason table verdicts head grows) :
    Justified table ((head, grows) :: verdicts) := by
  -- A verdict on the same object was the same.
  have known (other : TypeId) (judged : Bool) (found : verdicts.lookup other = some judged) :
      ((head, grows) :: verdicts).lookup other = some judged := by
    by_cases own : other = head
    · subst own
      obtain rfl := (justified other judged found).2.unique reason
      exact List.lookup_cons_self
    · rw [lookup_cons_of_ne own]
      exact found
  intro other judged found
  by_cases own : other = head
  · subst own
    rw [List.lookup_cons_self] at found
    obtain rfl := Option.some.inj found
    exact ⟨isObject, reason.mono known⟩
  · rw [lookup_cons_of_ne own] at found
    obtain ⟨declared, before⟩ := justified other judged found
    exact ⟨declared, before.mono known⟩

/-- An object with verdicts that agree on all lower layers is not judged both ways. -/
theorem Reason.agrees {first second : List (TypeId × Bool)} (layered : table.Layered layer)
    (isObject : head ∈ table.objects)
    (agree : ∀ other grows otherwise, layer other < layer head → first.lookup other = some grows →
      second.lookup other = some otherwise → grows = otherwise)
    (reason : Reason table first head true) : ¬ Reason table second head false := by
  intro otherwise
  obtain ⟨ahead, opens, deep⟩ := reason
  cases otherwise with
  | bounded judged shallow =>
      have alsoOpens {tree : TypeTree} (here : Ahead table second head (table.tree head) tree)
          (opens : Opens first head tree) : Opens second head tree := by
        intro other isInstance
        by_cases own : other = head
        · exact .inl own
        · obtain ⟨grows, isJudged⟩ := (judged tree here other isInstance).resolve_left own
          have lower := (layered head isObject other ⟨tree, here.mem_contents, isInstance⟩).resolve_left own
          have spared := (opens other isInstance).resolve_left own
          obtain rfl := agree other false grows lower spared isJudged
          exact .inr isJudged
      have alsoAhead {tree : TypeTree} (ahead : Ahead table first head (table.tree head) tree) :
          Ahead table second head (table.tree head) tree := by
        induction ahead with
        | refl => exact .refl
        | tail _ step ih => exact ih.tail ⟨alsoOpens ih step.1, step.2⟩
      exact shallow _ (alsoAhead ahead) (alsoOpens (alsoAhead ahead) opens) deep

/-- Where objects are layered, justified verdicts never differ. -/
theorem Justified.agrees {first second : List (TypeId × Bool)} (layered : table.Layered layer)
    (one : Justified table first) (two : Justified table second) {grows other : Bool}
    (known : first.lookup head = some grows) (otherKnown : second.lookup head = some other) : grows = other := by
  induction level : layer head using Nat.strong_induction_on generalizing head grows other with
  | h level ih =>
      subst level
      obtain ⟨isObject, reason⟩ := one head grows known
      obtain ⟨_, otherwise⟩ := two head other otherKnown
      have below (lower : TypeId) (grows other : Bool) (isLower : layer lower < layer head)
          (known : first.lookup lower = some grows) (otherKnown : second.lookup lower = some other) : grows = other :=
        ih (layer lower) isLower known otherKnown rfl
      cases grows with
      | true =>
          cases other with
          | true => rfl
          | false => exact absurd otherwise (reason.agrees layered isObject below)
      | false =>
          cases other with
          | true =>
              have swapped (lower : TypeId) (grows other : Bool) (isLower : layer lower < layer head)
                  (known : second.lookup lower = some grows) (otherKnown : first.lookup lower = some other) :=
                (below lower other grows isLower otherKnown known).symm
              exact absurd reason (otherwise.agrees layered isObject swapped)
          | false => rfl

/-- Reasons stay when there are further types. -/
theorem Reason.extends_ {larger : TypeTable} {grows : Bool} (wellFormed : table.WellFormed)
    (extends_ : table.Extends larger) (isObject : head ∈ table.objects)
    (reason : Reason table verdicts head grows) : Reason larger verdicts head grows := by
  have has := has_of_mem_objects isObject
  have same (tree : TypeTree) : Ahead larger verdicts head (larger.tree head) tree ↔
      Ahead table verdicts head (table.tree head) tree := by
    unfold Ahead
    rw [wellFormed.tree_extends extends_ has, iff_comm]
    refine leads_congr (fun owner part isOver => ?_) (fun owner part isOver step => ?_) (wellFormed.tree_isOver has)
    · rw [wellFormed.constituentTrees_isOver extends_ isOver]
    · exact wellFormed.isOver_constituent isOver part step.2
  cases reason with
  | grows ahead opens deep => exact .grows ((same _).mpr ahead) opens deep
  | bounded judged shallow =>
      exact .bounded (fun tree ahead => judged tree ((same tree).mp ahead))
        fun tree ahead => shallow tree ((same tree).mp ahead)

theorem Justified.extends_ {larger : TypeTable} (justified : Justified table verdicts) (wellFormed : table.WellFormed)
    (extends_ : table.Extends larger) : Justified larger verdicts := by
  intro head grows known
  obtain ⟨isObject, reason⟩ := justified head grows known
  exact ⟨objects_extends extends_ isObject, reason.extends_ wellFormed extends_ isObject⟩

end LifecycleHooks

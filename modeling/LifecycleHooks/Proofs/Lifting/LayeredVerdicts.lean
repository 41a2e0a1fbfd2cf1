import LifecycleHooks.Proofs.Lifting.Reasons

/-!
# Verdicts on layered objects

Where objects are layered, the search for growth never comes upon another object that is
being judged.  So it leaves none out, and every verdict is given for a reason, whatever was
asked before.
-/

namespace LifecycleHooks

open Attempt ResolveM TypeTable

namespace Resolver

variable {table : TypeTable} {resolver later : Resolver} {id head : TypeId}

/-- A resolver all of whose verdicts have a reason in the table that it works on. -/
structure Careful (table : TypeTable) (resolver : Resolver) : Prop where
  intact : resolver.Intact
  unfolds : table.Unfolds resolver.table
  justified : Justified table resolver.growth

theorem Careful.judges (careful : resolver.Careful table) (judges : resolver.Judges later)
    (justified : Justified table later.growth) : later.Careful table := by
  obtain ⟨intact, unfolds⟩ := judges.staysIntact careful.intact
  exact ⟨intact, careful.unfolds.trans unfolds, justified⟩

/-- What is neither the table nor a verdict does not matter. -/
theorem Careful.of_eq (careful : resolver.Careful table) (sameTable : later.table = resolver.table)
    (links : later.links = resolver.links) (cycles : later.cycles = resolver.cycles)
    (justified : Justified table later.growth) : later.Careful table :=
  ⟨(staysIntact_of_eq sameTable links cycles careful.intact).1, sameTable ▸ careful.unfolds, justified⟩

theorem asks_careful {Result : Type} {action : TableM Result} (extends_ : action.Preserves TypeTable.Extends)
    (unrolls : action.Preserves TableM.Unrolls) : (onTable action).Preserves (Lasts (Careful table)) :=
  onTable_preserves extends_ unrolls fun _ _ judges careful => careful.judges judges careful.justified

end Resolver

namespace ResolveM

open Resolver

variable {table : TypeTable} {layer : TypeId → Nat} {resolver final : Resolver} {head id : TypeId}
  {busy : List TypeId} {fuel : Nat}

/-- While an object is searched, the other objects that are being judged lie in higher
layers. -/
structure Searches (table : TypeTable) (layer : TypeId → Nat) (head : TypeId) (busy : List TypeId)
    (resolver : Resolver) : Prop extends Careful table resolver where
  judging : resolver.judging = head :: busy
  isObject : head ∈ table.objects
  higher : ∀ other ∈ busy, layer head < layer other

theorem Searches.judges {later : Resolver} (searches : Searches table layer head busy resolver)
    (judges : resolver.Judges later) (careful : later.Careful table) : Searches table layer head busy later :=
  { careful with
    judging := judges.judging.trans searches.judging
    isObject := searches.isObject
    higher := searches.higher }

/-- Another object that the search comes upon lies in a lower layer than all that are being
judged. -/
theorem Searches.lower {other : TypeId} {args : List TypeId} (layered : table.Layered layer)
    (searches : Searches table layer head busy resolver) (within : resolver.table.Within (table.contents head) id)
    (found : resolver.table.get? id = some (.applied other args)) (isOther : other ≠ head) :
    ∀ waiting ∈ resolver.judging, layer other < layer waiting := by
  have isInstance := (searches.intact.regular.toWellFormed.instance?_tree found).mpr ⟨args, rfl⟩
  have lower := (layered head searches.isObject other ⟨_, within.2, isInstance⟩).resolve_left isOther
  rw [searches.judging]
  exact List.forall_mem_cons.mpr ⟨lower, fun waiting member => lower.trans (searches.higher waiting member)⟩

theorem isFollowed_own {type : TypeDef} (found : resolver.table.get? id = some type)
    (own : ∀ other args, type = .applied other args → other = head) :
    isFollowed head fuel id resolver = .ok true resolver := by
  unfold isFollowed
  rw [bind_run_of_ok (fetch_eq_ok.mpr ⟨get_eq_ok.mpr found, rfl⟩)]
  cases type with
  | applied other args =>
      obtain rfl := own other args rfl
      simp only [if_true]
      rfl
  | _ => rfl

theorem isFollowed_other {other : TypeId} {args : List TypeId}
    (found : resolver.table.get? id = some (.applied other args)) (isOther : other ≠ head)
    (free : other ∉ resolver.judging) :
    isFollowed head fuel id resolver = (do return !(← growsForever fuel id) : ResolveM Bool) resolver := by
  unfold isFollowed
  rw [bind_run_of_ok (fetch_eq_ok.mpr ⟨get_eq_ok.mpr found, rfl⟩)]
  simp only [if_neg isOther]
  rw [get_bind_run, if_neg free]

/-- Judging within a budget is careful when only objects in higher layers are being
judged. -/
def JudgesCarefully (table : TypeTable) (layer : TypeId → Nat) (fuel : Nat) : Prop :=
  ∀ (id : TypeId) (resolver : Resolver), resolver.Careful table →
    (∀ head, resolver.table.head? id = .ok (some head) → ∀ waiting ∈ resolver.judging, layer head < layer waiting) →
    ((growsForever fuel id).finish resolver).Careful table

theorem isFollowed_careful (layered : table.Layered layer) (judges : JudgesCarefully table layer fuel)
    (searches : Searches table layer head busy resolver) (within : resolver.table.Within (table.contents head) id) :
    ((isFollowed head fuel id).finish resolver).Careful table := by
  obtain ⟨type, found⟩ := within.1.exists
  by_cases own : ∀ other args, type = .applied other args → other = head
  · rw [finish_of_ok (isFollowed_own found own)]
    exact searches.toCareful
  · push Not at own
    obtain ⟨other, args, rfl, isOther⟩ := own
    have lower := searches.lower layered within found isOther
    have free : other ∉ resolver.judging := fun member => lt_irrefl _ (lower other member)
    have judged : ((growsForever fuel id).finish resolver).Careful table := by
      refine judges id resolver searches.toCareful fun object isHead => ?_
      rw [TypeTable.head?, get_eq_ok.mpr found] at isHead
      obtain rfl := Option.some.inj (Except.ok.inj isHead)
      exact lower
    unfold finish
    rw [isFollowed_other found isOther free]
    change ((growsForever fuel id >>= fun grows => pure !grows).finish resolver).Careful table
    refine finish_bind (fun _ middle run => ?_) fun grows middle run => ?_
    · rwa [finish_of_error run] at judged
    · rwa [finish_of_ok run] at judged

/-- What the search makes of a type that it comes upon. -/
inductive Passes (head : TypeId) (verdicts : List (TypeId × Bool)) (tree : TypeTree) : Bool → Prop where
  | opens (opens : Opens verdicts head tree) : Passes head verdicts tree true
  | grows {other : TypeId} (isInstance : tree.instance? = some other) (isOther : other ≠ head)
      (judged : verdicts.lookup other = some true) : Passes head verdicts tree false

theorem isFollowed_passes {followed : Bool} (layered : table.Layered layer)
    (searches : Searches table layer head busy resolver) (within : resolver.table.Within (table.contents head) id)
    (run : isFollowed head fuel id resolver = .ok followed final) :
    Passes head final.growth (resolver.table.tree id) followed := by
  have wellFormed := searches.intact.regular.toWellFormed
  obtain ⟨type, found⟩ := within.1.exists
  by_cases own : ∀ other args, type = .applied other args → other = head
  · rw [isFollowed_own found own] at run
    obtain ⟨rfl, rfl⟩ := EStateM.Result.ok.inj run
    refine .opens fun other isInstance => .inl ?_
    obtain ⟨args, isApplied⟩ := (wellFormed.instance?_tree found).mp isInstance
    exact own other args isApplied
  · push Not at own
    obtain ⟨other, args, rfl, isOther⟩ := own
    have free : other ∉ resolver.judging := fun member =>
      lt_irrefl _ (searches.lower layered within found isOther other member)
    rw [isFollowed_other found isOther free] at run
    obtain ⟨grows, middle, judging, rest⟩ := bind_eq_ok.mp run
    obtain ⟨rfl, rfl⟩ := EStateM.Result.ok.inj rest
    have judges := (growsForever_judges fuel id).of_ok judging
    obtain ⟨intact, _⟩ := judges.staysIntact searches.intact
    have known := (judged_of_run judging).lookup_instance intact.regular.toWellFormed (judges.table.get? found)
    have isInstance := (wellFormed.instance?_tree found).mpr ⟨args, rfl⟩
    cases grows with
    | true => exact .grows isInstance isOther known
    | false =>
        refine .opens fun another isAnother => .inr ?_
        obtain rfl := Option.some.inj (isInstance.symm.trans isAnother)
        exact known

/-- A visit leaves a careful resolver. -/
theorem visitForGrowth_careful (layered : table.Layered layer) (judges : JudgesCarefully table layer fuel)
    (searches : Searches table layer head busy resolver) (within : resolver.table.Within (table.contents head) id) :
    ((visitForGrowth head fuel id).finish resolver).Careful table := by
  have followed := isFollowed_careful layered judges searches within
  have nests (id : TypeId) : (onTable (TableM.nesting id)).Preserves (Lasts (Careful table)) :=
    asks_careful (TableM.nesting_extends id) (TableM.nesting_unrolls id)
  have parts (id : TypeId) : (onTable (TableM.constituents id)).Preserves (Lasts (Careful table)) :=
    asks_careful (TableM.constituents_extends id) (TableM.constituents_unrolls id)
  unfold visitForGrowth
  refine finish_bind (fun _ middle run => ?_) fun follow middle run => ?_
  · rwa [finish_of_error run] at followed
  · rw [finish_of_ok run] at followed
    cases follow with
    | false => exact followed
    | true =>
        have opens : (openType id).Preserves (Lasts (Careful table)) := openType_leads nests parts id
        exact opens.finish middle followed

/-- What opening a type comes to. -/
inductive Opened (resolver : Resolver) (id : TypeId) : Option (List TypeId) → Prop where
  | deep (deep : TooDeep (resolver.table.tree id)) : Opened resolver id none
  | shallow {next : List TypeId} (shallow : ¬ TooDeep (resolver.table.tree id))
      (known : ∀ other ∈ next, resolver.table.Has other)
      (parts : ∀ part, part ∈ resolver.table.constituentTrees (resolver.table.tree id) ↔
        ∃ other ∈ next, resolver.table.tree other = part) : Opened resolver id (some next)

theorem openType_opened {next : Option (List TypeId)} (intact : resolver.Intact) (has : resolver.table.Has id)
    (run : openType id resolver = .ok next final) : Opened final id next := by
  obtain ⟨larger, nested⟩ := isTooDeep_run intact has
  have grown := (isTooDeep_judges id).of_ok nested
  obtain ⟨middleIntact, unfolds⟩ := grown.staysIntact intact
  have sameTree := intact.regular.tree_extends unfolds.extends_ has
  unfold openType at run
  rw [bind_run_of_ok nested] at run
  cases deep : (resolver.table.tree id).instance?.isSome &&
    decide (nestingLimit < (resolver.table.tree id).depth) with
  | true =>
      rw [deep] at run
      obtain ⟨rfl, rfl⟩ := EStateM.Result.ok.inj run
      rw [← sameTree] at deep
      exact .deep (by simpa [TooDeep] using deep)
  | false =>
      rw [deep] at run
      have middleHas := has.extends_ unfolds.extends_
      obtain ⟨slots, largest, asked, _, further, holds⟩ :=
        TableM.constituents_works middleIntact.regular.toWellFormed middleHas
      simp only [Bool.false_eq_true, if_false] at run
      rw [bind_run_of_ok (onTable_eq_ok.mpr ⟨largest, asked, rfl⟩)] at run
      obtain ⟨rfl, rfl⟩ := EStateM.Result.ok.inj run
      have lastTree := middleIntact.regular.tree_extends further.extends_ middleHas
      have parts := middleIntact.regular.constituentTrees_extends further.extends_ middleHas
      rw [← sameTree, ← lastTree] at deep
      refine .shallow (by simpa [TooDeep] using deep) (fun other member => ?_) fun part => ?_
      · obtain ⟨slot, isSlot, rfl⟩ := mem_typesBackwards.mp member
        exact holds.2 slot isSlot
      · change part ∈ largest.constituentTrees (largest.tree id) ↔ _
        rw [parts, ← holds.1]
        simp

/-- What a visit of the search for growth leads to. -/
inductive Visited (table : TypeTable) (head : TypeId) (resolver : Resolver) (id : TypeId) :
    Option (List TypeId) → Prop where
  | deep (opens : Opens resolver.growth head (resolver.table.tree id)) (deep : TooDeep (resolver.table.tree id)) :
      Visited table head resolver id none
  | opened {next : List TypeId} (opens : Opens resolver.growth head (resolver.table.tree id))
      (shallow : ¬ TooDeep (resolver.table.tree id)) (known : ∀ other ∈ next, resolver.table.Has other)
      (parts : ∀ part, part ∈ table.constituentTrees (resolver.table.tree id) ↔
        ∃ other ∈ next, resolver.table.tree other = part) : Visited table head resolver id (some next)
  | grows {other : TypeId} (isInstance : (resolver.table.tree id).instance? = some other) (isOther : other ≠ head)
      (judged : resolver.growth.lookup other = some true) : Visited table head resolver id (some [])

theorem visitForGrowth_visited {found : Option (List TypeId)} (wellFormed : table.WellFormed)
    (layered : table.Layered layer) (searches : Searches table layer head busy resolver)
    (within : resolver.table.Within (table.contents head) id)
    (run : visitForGrowth head fuel id resolver = .ok found final) : Visited table head final id found := by
  obtain ⟨followed, middle, following, rest⟩ := bind_eq_ok.mp run
  have passes := isFollowed_passes layered searches within following
  have judges := (isFollowed_judges (growsForever_judges fuel) head id).of_ok following
  obtain ⟨intact, unfolds⟩ := judges.staysIntact searches.intact
  have has := within.1.extends_ unfolds.extends_
  have regular := intact.regular.toWellFormed
  rw [← searches.intact.regular.toWellFormed.tree_extends unfolds.extends_ within.1] at passes
  cases passes with
  | grows isInstance isOther judged =>
      obtain ⟨rfl, rfl⟩ := EStateM.Result.ok.inj rest
      exact .grows isInstance isOther judged
  | opens opens =>
      have opening := (openType_judges id).of_ok rest
      obtain ⟨-, lastUnfolds⟩ := opening.staysIntact intact
      rw [← regular.tree_extends opening.table has] at opens
      cases openType_opened intact has rest with
      | deep deep => exact .deep (opens.mono opening.growth) deep
      | shallow shallow known parts =>
          refine .opened (opens.mono opening.growth) shallow known fun part => ?_
          rw [← wellFormed.constituentTrees_unfolds (searches.unfolds.trans (unfolds.trans lastUnfolds))]
          exact parts part

theorem Visited.parts_within {next : List TypeId} (visited : Visited table head resolver id (some next))
    (within : resolver.table.Within (table.contents head) id) :
    ∀ other ∈ next, resolver.table.Within (table.contents head) other := by
  cases visited with
  | opened opens shallow known parts =>
      intro other member
      exact ⟨known other member, within.2.tail ((parts _).mpr ⟨other, member, rfl⟩)⟩
  | grows => simp

theorem Visited.judges {later : Resolver} {next : List TypeId} (visited : Visited table head resolver id (some next))
    (wellFormed : resolver.table.WellFormed) (has : resolver.table.Has id) (judges : resolver.Judges later) :
    Visited table head later id (some next) := by
  have sameTree {other : TypeId} (has : resolver.table.Has other) : later.table.tree other = resolver.table.tree other :=
    wellFormed.tree_extends judges.table has
  cases visited with
  | opened opens shallow known parts =>
      rw [← sameTree has] at opens shallow parts
      refine .opened (opens.mono judges.growth) shallow (fun other member => (known other member).extends_ judges.table)
        fun part => ?_
      rw [parts]
      refine exists_congr fun other => and_congr_right fun member => ?_
      rw [sameTree (known other member)]
  | grows isInstance isOther judged =>
      rw [← sameTree has] at isInstance
      exact .grows isInstance isOther (judges.growth _ _ judged)

/-- The search for growth of an object can come upon a type. -/
def Meets (table : TypeTable) (head : TypeId) (resolver : Resolver) (id : TypeId) : Prop :=
  resolver.Intact ∧ resolver.table.Within (table.contents head) id

/-- Searching a layered object keeps to what the object is made from. -/
theorem searches_roams (wellFormed : table.WellFormed) (layered : table.Layered layer)
    (judges : ∀ less < fuel, JudgesCarefully table layer less) (head : TypeId) (busy : List TypeId) :
    Roams (visitForGrowth head) Judges (Searches table layer head busy) (Meets table head) fuel where
  leads less below id resolver searches inside := by
    have judged := (visitForGrowth_judges (growsForever_judges less) head id).finish resolver
    have careful := visitForGrowth_careful layered (judges less below) searches inside.2
    exact ⟨judged, searches.judges judged careful⟩
  goesOn less below id resolver next later searches inside run other member := by
    have judged := (visitForGrowth_judges (growsForever_judges less) head id).of_ok run
    have visited := visitForGrowth_visited wellFormed layered searches inside.2 run
    have within := searches.intact.regular.toWellFormed.within_extends judged.table inside.2
    exact ⟨(judged.staysIntact searches.intact).1, visited.parts_within within other member⟩
  stays resolver later id judged inside :=
    ⟨(judged.staysIntact inside.1).1, inside.1.regular.toWellFormed.within_extends judged.table inside.2⟩

theorem Searches.meets (searches : Searches table layer head busy resolver) (wellFormed : table.WellFormed) :
    Meets table head resolver head := by
  obtain ⟨object, declared⟩ := searches.isObject
  have has : table.Has head := has_of_get? (declared?_eq_some.mp declared).1
  refine ⟨searches.intact, has.extends_ searches.unfolds.extends_, ?_⟩
  rw [wellFormed.tree_extends searches.unfolds.extends_ has]
  exact Relation.ReflTransGen.refl

theorem searchGrowth_searches (wellFormed : table.WellFormed) (layered : table.Layered layer)
    (judges : ∀ less < fuel, JudgesCarefully table layer less)
    (searches : Searches table layer head busy resolver) :
    Searches table layer head busy ((searchGrowth fuel head [] [head]).finish resolver) := by
  rw [searchGrowth_eq_search]
  have start := List.forall_mem_singleton.mpr (searches.meets wellFormed)
  exact ((searches_roams wellFormed layered judges head busy).search searches start).2

/-- What a visit that goes on tells about a type stays so. -/
theorem visited_later {less : Nat} {next : List TypeId} {middle later : Resolver} (wellFormed : table.WellFormed)
    (layered : table.Layered layer) (searches : Searches table layer head busy resolver)
    (within : resolver.table.Within (table.contents head) id)
    (run : visitForGrowth head less id resolver = .ok (some next) middle) (judges : middle.Judges later) :
    Visited table head later id (some next) := by
  have judged := (visitForGrowth_judges (growsForever_judges less) head id).of_ok run
  obtain ⟨intact, unfolds⟩ := judged.staysIntact searches.intact
  exact (visitForGrowth_visited wellFormed layered searches within run).judges intact.regular.toWellFormed
    (within.1.extends_ unfolds.extends_) judges

/-- The search for growth of a layered object ends with a reason for its answer. -/
theorem searchGrowth_reason {grows : Bool} (wellFormed : table.WellFormed) (layered : table.Layered layer)
    (judges : ∀ less < fuel, JudgesCarefully table layer less)
    (searches : Searches table layer head busy resolver)
    (run : searchGrowth fuel head [] [head] resolver = .ok grows final) : Reason table final.growth head grows := by
  have last := searchGrowth_searches wellFormed layered judges searches
  rw [finish_of_ok run] at last
  rw [searchGrowth_eq_search] at run
  obtain ⟨object, declared⟩ := searches.isObject
  have has : table.Has head := has_of_get? (declared?_eq_some.mp declared).1
  have roams := searches_roams wellFormed layered judges head busy
  have start := List.forall_mem_singleton.mpr (searches.meets wellFormed)
  have lastTree := wellFormed.tree_extends last.unfolds.extends_ has
  cases grows with
  | true =>
      let goal (state : Resolver) (id : TypeId) : Prop := ∃ tree,
        Ahead table state.growth head (state.table.tree id) tree ∧ Opens state.growth head tree ∧ TooDeep tree
      have found : ∃ id ∈ [head], goal final id := by
        refine search_found roams (fun less id state later _ searches inside run => ?_)
          (fun less id next state middle later _ searches inside run judges other member found => ?_) searches start run
        · cases visitForGrowth_visited wellFormed layered searches inside.2 run with
          | deep opens deep => exact ⟨_, .refl, opens, deep⟩
        · obtain ⟨tree, ahead, opens, deep⟩ := found
          cases visited_later wellFormed layered searches inside.2 run judges with
          | opened here _ _ parts =>
              exact ⟨tree, ahead.head ⟨here, (parts _).mpr ⟨other, member, rfl⟩⟩, opens, deep⟩
          | grows => cases member
      obtain ⟨_, member, tree, ahead, opens, deep⟩ := found
      obtain rfl := List.mem_singleton.mp member
      rw [lastTree] at ahead
      exact .grows ahead opens deep
  | false =>
      obtain ⟨region, covers, closed⟩ := search_exhausted
        roams
        (fun less id next state middle later _ searches inside run judges =>
          visited_later wellFormed layered searches inside.2 run judges) searches start run
      have seen {tree : TypeTree} (ahead : Ahead table final.growth head (table.tree head) tree) :
          ∃ id ∈ region, final.table.tree id = tree := by
        induction ahead with
        | refl => exact ⟨head, (covers head (by simp)).resolve_left (by simp), lastTree⟩
        | tail _ step ih =>
            obtain ⟨id, inRegion, rfl⟩ := ih
            obtain ⟨next, visited, onwards⟩ := closed id inRegion
            cases visited with
            | opened _ _ _ parts =>
                obtain ⟨other, member, same⟩ := (parts _).mp step.2
                exact ⟨other, (onwards other member).resolve_left (by simp), same⟩
            | grows isInstance isOther judged =>
                have spared := (step.1 _ isInstance).resolve_left isOther
                cases judged.symm.trans spared
      refine .bounded (fun tree ahead other isInstance => ?_) fun tree ahead opens deep => ?_
      · obtain ⟨id, inRegion, rfl⟩ := seen ahead
        obtain ⟨next, visited, _⟩ := closed id inRegion
        cases visited with
        | opened opens _ _ _ => exact (opens other isInstance).imp_right fun spared => ⟨_, spared⟩
        | grows isOther _ judged =>
            obtain rfl := Option.some.inj (isOther.symm.trans isInstance)
            exact .inr ⟨_, judged⟩
      · obtain ⟨id, inRegion, rfl⟩ := seen ahead
        obtain ⟨next, visited, _⟩ := closed id inRegion
        cases visited with
        | opened _ shallow _ _ => exact shallow deep
        | grows isInstance isOther judged =>
            have spared := (opens _ isInstance).resolve_left isOther
            cases judged.symm.trans spared

/-- Judging is careful when only objects in higher layers are being judged. -/
theorem growsForever_careful (wellFormed : table.WellFormed) (layered : table.Layered layer) (fuel : Nat) :
    JudgesCarefully table layer fuel := by
  induction fuel using Nat.strong_induction_on with
  | h fuel ih =>
      intro id resolver careful higher
      cases fuel with
      | zero => exact careful
      | succ fuel =>
          have asks {Result : Type} (question : TypeTable → Except Fault Result) {fault : Fault} {middle : Resolver}
              (run : ask question resolver = .error fault middle) : middle.Careful table := by
            have leads : (ask question).Preserves (Lasts (Careful table)) := ask_leads question
            exact leads.of_error run careful
          unfold growsForever
          refine finish_bind (fun _ middle run => asks _ run) fun answer middle run => ?_
          obtain ⟨isHead, rfl⟩ := ask_eq_ok.mp run
          cases answer with
          | none => exact careful
          | some head =>
              refine finish_bind (fun _ middle run => asks _ run) fun type middle run => ?_
              obtain ⟨found, rfl⟩ := fetch_eq_ok.mp run
              cases generic : type.typeParams.isEmpty with
              | true => exact careful
              | false =>
                  rw [if_neg (by simp), finish_get_bind]
                  cases unknown : middle.growth.lookup head with
                  | some known => exact careful
                  | none =>
                      have isObject : head ∈ table.objects :=
                        careful.unfolds.objects_eq ▸ isObject_of_typeParams (get_eq_ok.mp found) generic
                      have searches : Searches table layer head middle.judging
                          { middle with judging := head :: middle.judging } :=
                        ⟨careful.of_eq rfl rfl rfl careful.justified, rfl, isObject, higher head isHead⟩
                      have below : ∀ less < fuel, JudgesCarefully table layer less := fun less small => ih less (by omega)
                      have searched := searchGrowth_searches wellFormed layered below searches
                      refine finish_bind (fun _ _ run => by cases run) fun _ begun run => ?_
                      obtain rfl : begun = { middle with judging := head :: middle.judging } := by
                        simpa [beginJudging, eq_comm] using run
                      refine finish_bind (fun _ failed run => ?_) fun grows ended run => ?_
                      · have failing := finish_of_error run
                        rw [finish_andFinally] at failing
                        rw [← failing]
                        exact searched.toCareful.of_eq rfl rfl rfl searched.justified
                      · obtain ⟨changed, acted, rfl⟩ := andFinally_eq_ok.mp run
                        have reason := searchGrowth_reason wellFormed layered below searches acted
                        rw [finish_of_ok acted] at searched
                        exact searched.toCareful.of_eq rfl rfl rfl (searched.justified.cons isObject reason)

end ResolveM
end LifecycleHooks

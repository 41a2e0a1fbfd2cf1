import LifecycleHooks.Proofs.Lifting.Confinement
import LifecycleHooks.Proofs.Lifting.LayeredVerdicts
import LifecycleHooks.Proofs.Lifting.ShallowContents

/-!
# Founded verdicts

Whatever else is being judged, an object is judged to grow only for an instance that it
holds and that nests too deeply.  So a shallow object is never judged to grow, and in no
order of judgements is any object when all are shallow.  Where no order of judgements finds
a growing object, all of them are shallow: judged first, an object is searched to its end.
-/

namespace LifecycleHooks

open Attempt ResolveM TypeTable Resolver

section Visiting

variable {resolver later final : Resolver} {head id : TypeId} {fuel : Nat}

/-- What a visit of the search for growth leads to. -/
inductive Searched (head : TypeId) (resolver : Resolver) (id : TypeId) : Option (List TypeId) → Prop where
  | deep (deep : TooDeep (resolver.table.tree id)) : Searched head resolver id none
  | opened {next : List TypeId} (shallow : ¬ TooDeep (resolver.table.tree id))
      (known : ∀ other ∈ next, resolver.table.Has other)
      (parts : ∀ part, part ∈ resolver.table.constituentTrees (resolver.table.tree id) ↔
        ∃ other ∈ next, resolver.table.tree other = part) : Searched head resolver id (some next)
  | left {other : TypeId} {args : List TypeId} (found : resolver.table.get? id = some (.applied other args))
      (isOther : other ≠ head) (out : other ∈ resolver.judging ∨ resolver.growth.lookup other = some true) :
      Searched head resolver id (some [])

/-- Only instances of other objects that grow, or that are being judged, are left out. -/
theorem isFollowed_eq_false (intact : resolver.Intact) (has : resolver.table.Has id)
    (run : isFollowed head fuel id resolver = .ok false final) :
    ∃ other args, final.table.get? id = some (.applied other args) ∧ other ≠ head ∧
      (other ∈ final.judging ∨ final.growth.lookup other = some true) := by
  obtain ⟨type, found⟩ := has.exists
  by_cases own : ∀ other args, type = .applied other args → other = head
  · rw [isFollowed_own found own] at run
    cases run
  · push Not at own
    obtain ⟨other, args, rfl, isOther⟩ := own
    refine ⟨other, args, ?_⟩
    by_cases busy : other ∈ resolver.judging
    · unfold isFollowed at run
      rw [bind_run_of_ok (fetch_eq_ok.mpr ⟨get_eq_ok.mpr found, rfl⟩)] at run
      simp only [if_neg isOther] at run
      rw [get_bind_run, if_pos busy] at run
      obtain ⟨_, rfl⟩ := EStateM.Result.ok.inj run
      exact ⟨found, isOther, .inl busy⟩
    · rw [isFollowed_other found isOther busy] at run
      obtain ⟨grows, middle, judging, rest⟩ := bind_eq_ok.mp run
      obtain ⟨answer, rfl⟩ := EStateM.Result.ok.inj rest
      obtain rfl : grows = true := by simpa using answer
      have judges := (growsForever_judges fuel id).of_ok judging
      obtain ⟨laterIntact, _⟩ := judges.staysIntact intact
      have stillFound := judges.table.get? found
      exact ⟨stillFound, isOther,
        .inr ((judged_of_run judging).lookup_instance laterIntact.regular.toWellFormed stillFound)⟩

theorem visitForGrowth_searched {next : Option (List TypeId)} (intact : resolver.Intact)
    (has : resolver.table.Has id) (run : visitForGrowth head fuel id resolver = .ok next final) :
    Searched head final id next := by
  obtain ⟨followed, middle, following, rest⟩ := bind_eq_ok.mp run
  have judges := (isFollowed_judges (growsForever_judges fuel) head id).of_ok following
  obtain ⟨middleIntact, _⟩ := judges.staysIntact intact
  have middleHas := has.extends_ judges.table
  cases followed with
  | false =>
      obtain ⟨rfl, rfl⟩ := EStateM.Result.ok.inj rest
      obtain ⟨other, args, found, isOther, out⟩ := isFollowed_eq_false intact has following
      exact .left found isOther out
  | true =>
      cases openType_opened middleIntact middleHas rest with
      | deep deep => exact .deep deep
      | shallow shallow known parts => exact .opened shallow known parts

/-- What a visit led to stays so. -/
theorem Searched.judges {next : List TypeId} (searched : Searched head resolver id (some next))
    (intact : resolver.Intact) (has : resolver.table.Has id) (judges : resolver.Judges later) :
    Searched head later id (some next) := by
  have wellFormed := intact.regular.toWellFormed
  have sameTree {other : TypeId} (has : resolver.table.Has other) : later.table.tree other = resolver.table.tree other :=
    wellFormed.tree_extends judges.table has
  cases searched with
  | opened shallow known parts =>
      refine .opened (sameTree has ▸ shallow) (fun other member => (known other member).extends_ judges.table)
        fun part => ?_
      rw [wellFormed.constituentTrees_extends judges.table has, parts]
      refine exists_congr fun other => and_congr_right fun member => ?_
      rw [sameTree (known other member)]
  | left found isOther out =>
      refine .left (judges.table.get? found) isOther (out.imp (fun busy => ?_) fun grows => judges.growth _ _ grows)
      rwa [judges.judging]

theorem Searched.known {next : List TypeId} (searched : Searched head resolver id (some next)) :
    ∀ other ∈ next, resolver.table.Has other := by
  cases searched with
  | opened _ known _ => exact known
  | left => simp

end Visiting

namespace Resolver

variable {resolver later : Resolver}

/-- An intact resolver that judged only generic objects to grow that are not shallow. -/
structure Founded (resolver : Resolver) : Prop where
  intact : resolver.Intact
  founded : ∀ head, resolver.growth.lookup head = some true →
    head ∈ resolver.table.genericObjects ∧ ¬ resolver.table.Shallow head

theorem shallow_extends_iff {id : TypeId} (intact : resolver.Intact) (has : resolver.table.Has id)
    (extends_ : resolver.table.Extends later.table) : later.table.Shallow id ↔ resolver.table.Shallow id := by
  unfold Shallow
  rw [intact.regular.toWellFormed.contents_extends extends_ has]

/-- Further types leave verdicts founded. -/
theorem Founded.extends_ (founded : resolver.Founded) (intact : later.Intact)
    (extends_ : resolver.table.Extends later.table) (growth : later.growth = resolver.growth) : later.Founded where
  intact := intact
  founded head grows := by
    obtain ⟨generic, deep⟩ := founded.founded head (growth ▸ grows)
    have has := has_of_mem_genericObjects generic
    exact ⟨genericObjects_extends extends_ generic, mt (shallow_extends_iff founded.intact has extends_).mp deep⟩

/-- What is neither the table nor a verdict does not matter. -/
theorem Founded.of_eq (founded : resolver.Founded) (table : later.table = resolver.table)
    (links : later.links = resolver.links) (cycles : later.cycles = resolver.cycles)
    (growth : later.growth = resolver.growth) : later.Founded :=
  founded.extends_ (staysIntact_of_eq table links cycles founded.intact).1 (table ▸ .refl _) growth

theorem asks_founded {Result : Type} {action : TableM Result} (extends_ : action.Preserves TypeTable.Extends)
    (unrolls : action.Preserves TableM.Unrolls) : (onTable action).Preserves (Lasts Founded) :=
  onTable_preserves extends_ unrolls fun _ _ judges founded =>
    founded.extends_ (judges.staysIntact founded.intact).1 judges.table rfl

/-- Another verdict is founded too. -/
theorem Founded.judge {head : TypeId} {grows : Bool} (founded : resolver.Founded)
    (generic : head ∈ resolver.table.genericObjects)
    (deep : grows = true → ¬ resolver.table.Shallow head) :
    Founded { resolver with growth := (head, grows) :: resolver.growth } where
  intact := ⟨founded.intact.regular, founded.intact.links, founded.intact.cycles⟩
  founded other isGrowing := by
    by_cases own : other = head
    · subst own
      rw [List.lookup_cons_self] at isGrowing
      exact ⟨generic, deep (Option.some.inj isGrowing)⟩
    · rw [lookup_cons_of_ne own] at isGrowing
      exact founded.founded other isGrowing

/-- A type of a shallow object is not judged to grow. -/
theorem Founded.not_judged {id : TypeId} (founded : resolver.Founded)
    (shallow : ∀ head, resolver.table.head? id = .ok (some head) → head ∈ resolver.table.genericObjects →
      resolver.table.Shallow head) : ¬ resolver.Judged id true := by
  intro judged
  cases judged with
  | generic isHead _ _ known =>
      obtain ⟨generic, deep⟩ := founded.founded _ known
      exact deep (shallow _ isHead generic)

end Resolver

namespace ResolveM

variable {resolver final : Resolver} {head id : TypeId} {fuel : Nat}

/-- The search for growth keeps to existing types, and the verdicts stay founded. -/
theorem searchGrowth_roams (judges : ∀ less < fuel, ∀ id, (growsForever less id).Preserves (Lasts Founded))
    (head : TypeId) :
    Roams (visitForGrowth head) Judges Founded (fun resolver id => resolver.table.Has id) fuel where
  leads less below id resolver founded _ := by
    have nests (id : TypeId) := asks_founded (TableM.nesting_extends id) (TableM.nesting_unrolls id)
    have parts (id : TypeId) := asks_founded (TableM.constituents_extends id) (TableM.constituents_unrolls id)
    exact ⟨(visitForGrowth_judges (growsForever_judges less) head id).finish resolver,
      Preserves.finish (visitForGrowth_leads nests parts (judges less below) head id) resolver founded⟩
  goesOn _ _ _ _ _ _ founded has run := (visitForGrowth_searched founded.intact has run).known
  stays _ _ _ judged has := has.extends_ judged.table

/-- A search that ends early has come upon an instance that nests too deeply. -/
theorem not_shallow_of_search (judges : ∀ less < fuel, ∀ id, (growsForever less id).Preserves (Lasts Founded))
    (founded : resolver.Founded) (has : resolver.table.Has head)
    (run : searchGrowth fuel head [] [head] resolver = .ok true final) : ¬ final.table.Shallow head := by
  rw [searchGrowth_eq_search] at run
  let goal (state : Resolver) (id : TypeId) : Prop := ∃ tree ∈ state.table.contents id, TooDeep tree
  have found : ∃ id ∈ [head], goal final id := by
    refine search_found (searchGrowth_roams judges head) (fun less id state later _ founded has run => ?_)
      (fun less id next state middle later _ founded has run judged other member found => ?_) founded
      (List.forall_mem_singleton.mpr has) run
    · cases visitForGrowth_searched founded.intact has run with
      | deep deep => exact ⟨_, .refl, deep⟩
    · obtain ⟨tree, inside, deep⟩ := found
      have visits := (visitForGrowth_judges (growsForever_judges less) head id).of_ok run
      have middleIntact := (visits.staysIntact founded.intact).1
      cases (visitForGrowth_searched founded.intact has run).judges middleIntact (has.extends_ visits.table) judged with
      | opened _ _ parts => exact ⟨tree, Relation.ReflTransGen.head ((parts _).mpr ⟨other, member, rfl⟩) inside, deep⟩
      | left => cases member
  obtain ⟨_, member, tree, inside, deep⟩ := found
  obtain rfl := List.mem_singleton.mp member
  exact fun shallow => shallow tree inside deep

/-- Judging leaves all verdicts founded, whichever other objects are being judged. -/
theorem growsForever_founded (fuel : Nat) (id : TypeId) : (growsForever fuel id).Preserves (Lasts Founded) := by
  induction fuel using Nat.strong_induction_on generalizing id with
  | h fuel ih =>
      cases fuel with
      | zero => exact leads_throw _
      | succ fuel =>
          unfold growsForever
          refine (ask_leads _).bind fun answer => ?_
          cases answer with
          | none => exact leads_pure _
          | some head =>
              refine preserves_iff.mpr fun resolver founded => ?_
              refine finish_bind (fun _ middle run => ?_) fun type middle run => ?_
              · have asks : (fetch head).Preserves (Lasts Founded) := ask_leads _
                exact asks.of_error run founded
              obtain ⟨found, rfl⟩ := fetch_eq_ok.mp run
              have has : middle.table.Has head := has_of_get? (get_eq_ok.mp found)
              split
              · exact founded
              · rename_i isGeneric
                have generic := mem_genericObjects_of_typeParams (get_eq_ok.mp found) (by simpa using isGeneric)
                rw [finish_get_bind]
                split
                · exact founded
                · have below : ∀ less < fuel, ∀ id, (growsForever less id).Preserves (Lasts Founded) :=
                    fun less small => ih less (by omega)
                  have begun : Founded { middle with judging := head :: middle.judging } :=
                    founded.of_eq rfl rfl rfl rfl
                  have searched : Founded ((searchGrowth fuel head [] [head]).finish
                      { middle with judging := head :: middle.judging }) := by
                    rw [searchGrowth_eq_search]
                    exact ((searchGrowth_roams below head).search begun (List.forall_mem_singleton.mpr has)).2
                  have ends (state : Resolver) (founded : state.Founded) :
                      Founded { state with judging := state.judging.erase head } :=
                    founded.of_eq rfl rfl rfl rfl
                  refine finish_bind (fun _ _ run => by cases run) fun _ started run => ?_
                  obtain rfl : started = { middle with judging := head :: middle.judging } := by
                    simpa [beginJudging, eq_comm] using run
                  refine finish_bind (fun _ failed run => ?_) fun grows ended run => ?_
                  · have failing := finish_of_error run
                    rw [finish_andFinally] at failing
                    exact failing ▸ ends _ searched
                  · obtain ⟨changed, acted, rfl⟩ := andFinally_eq_ok.mp run
                    rw [finish_of_ok acted] at searched
                    have searches : (search (visitForGrowth head) fuel [] [head]).Preserves Judges :=
                      search_leads (fun less _ other => visitForGrowth_judges (growsForever_judges less) head other) _ _
                    rw [← searchGrowth_eq_search] at searches
                    have stillGeneric : head ∈ changed.table.genericObjects :=
                      genericObjects_extends (searches.of_ok acted).table generic
                    refine (ends _ searched).judge stillGeneric ?_
                    rintro rfl
                    have deep := not_shallow_of_search below begun has acted
                    exact deep

/-- A shallow object is never judged to grow. -/
theorem growsForever_of_shallow {grows : Bool} (founded : resolver.Founded) (has : resolver.table.Has id)
    (shallow : ∀ head, resolver.table.head? id = .ok (some head) → head ∈ resolver.table.genericObjects →
      resolver.table.Shallow head) (run : growsForever fuel id resolver = .ok grows final) : grows = false := by
  have judges := (growsForever_judges fuel id).of_ok run
  have finalFounded := (growsForever_founded fuel id).of_ok run founded
  have finalShallow (head : TypeId) (isHead : final.table.head? id = .ok (some head))
      (generic : head ∈ final.table.genericObjects) : final.table.Shallow head := by
    obtain ⟨type, found⟩ := has.exists
    obtain ⟨answer, asked⟩ := head?_answers found
    obtain rfl : answer = some head := Except.ok.inj ((judges.table.head? asked).symm.trans isHead)
    have before := genericObjects_unfolds (judges.staysIntact founded.intact).2 generic
    have hasHead := has_of_mem_genericObjects before
    exact (shallow_extends_iff founded.intact hasHead judges.table).mpr (shallow head asked before)
  have spared := finalFounded.not_judged finalShallow
  cases grows with
  | true => exact absurd (judged_of_run run) spared
  | false => rfl

/-- In whatever order the generic objects of a table are judged, none is found to grow. -/
def NeverGrows (table : TypeTable) : Prop :=
  ∀ (fuel : Nat) (ids : List TypeId) (answers : List Bool) (final : Resolver),
    ids.mapM (growsForever fuel) { table := table } = .ok answers final → ∀ grows ∈ answers, grows = false

theorem fresh_founded {table : TypeTable} (regular : table.Regular) : Founded { table := table } :=
  ⟨⟨regular, by simp, by simp⟩, by simp⟩

/-- Where all generic objects are shallow, none of them is judged to grow. -/
theorem growsForever_each_false {ids : List TypeId} {answers : List Bool} (founded : resolver.Founded)
    (allShallow : resolver.table.AllShallow) (run : ids.mapM (growsForever fuel) resolver = .ok answers final) :
    ∀ grows ∈ answers, grows = false := by
  induction ids generalizing resolver answers with
  | nil =>
      obtain ⟨rfl, _⟩ := EStateM.Result.ok.inj run
      simp
  | cons id ids ih =>
      rw [List.mapM_cons] at run
      obtain ⟨first, middle, judging, run⟩ := bind_eq_ok.mp run
      obtain ⟨rest, last, others, run⟩ := bind_eq_ok.mp run
      obtain ⟨rfl, rfl⟩ := EStateM.Result.ok.inj run
      have unfolds := (((growsForever_judges fuel id).of_ok judging).staysIntact founded.intact).2
      have middleShallow := allShallow.unfolds founded.intact.regular.toWellFormed unfolds
      refine List.forall_mem_cons.mpr ⟨?_, ?_⟩
      · exact growsForever_of_shallow founded (has_of_growsForever judging) (fun head _ => allShallow head) judging
      · exact ih ((growsForever_founded fuel id).of_ok judging founded) middleShallow others

theorem neverGrows_of_allShallow {table : TypeTable} (regular : table.Regular) (allShallow : table.AllShallow) :
    NeverGrows table :=
  fun _ _ _ _ run => growsForever_each_false (fresh_founded regular) allShallow run

section Judging

variable {table : TypeTable}

/-- The search of the object that is judged first passes a region of types.  It leaves out only instances
of other objects that were found to grow, and comes upon everything that the others hold. -/
theorem region_of_search {ended : Resolver} (intact : resolver.Intact) (has : resolver.table.Has head)
    (judging : resolver.judging = [head]) (run : searchGrowth fuel head [] [head] resolver = .ok false ended) :
    ∃ region : List TypeId, head ∈ region ∧ ∀ id ∈ region,
      (∃ other args, ended.table.get? id = some (.applied other args) ∧ other ≠ head ∧
        ended.growth.lookup other = some true) ∨
      (¬ TooDeep (ended.table.tree id) ∧ ∀ part ∈ ended.table.constituentTrees (ended.table.tree id),
        ∃ other ∈ region, ended.table.tree other = part) := by
  rw [searchGrowth_eq_search] at run
  have searches : (search (visitForGrowth head) fuel [] [head]).Preserves Judges :=
    search_leads (fun less _ other => visitForGrowth_judges (growsForever_judges less) head other) _ _
  have sameBusy : ended.judging = [head] := (searches.of_ok run).judging.trans judging
  have roams : Roams (visitForGrowth head) Judges Intact (fun resolver id => resolver.table.Has id) fuel :=
    { leads := fun less _ id resolver intact _ =>
        have judges := (visitForGrowth_judges (growsForever_judges less) head id).finish resolver
        ⟨judges, (judges.staysIntact intact).1⟩
      goesOn := fun _ _ _ _ _ _ intact has run => (visitForGrowth_searched intact has run).known
      stays := fun _ _ _ judges has => has.extends_ judges.table }
  obtain ⟨region, covers, closed⟩ := search_exhausted roams
    (fun less id next resolver middle later _ intact has run judges => by
      have visits := (visitForGrowth_judges (growsForever_judges less) head id).of_ok run
      exact (visitForGrowth_searched intact has run).judges (visits.staysIntact intact).1
        (has.extends_ visits.table) judges) intact (List.forall_mem_singleton.mpr has) run
  refine ⟨region, (covers head (by simp)).resolve_left (by simp), fun id inRegion => ?_⟩
  obtain ⟨next, searched, onwards⟩ := closed id inRegion
  cases searched with
  | opened shallow _ parts =>
      refine .inr ⟨shallow, fun part isPart => ?_⟩
      obtain ⟨other, member, same⟩ := (parts part).mp isPart
      exact ⟨other, (onwards other member).resolve_left (by simp), same⟩
  | left found isOther out =>
      -- No other object is being judged.
      have notBusy : _ ∉ ended.judging := sameBusy ▸ fun busy => isOther (List.mem_singleton.mp busy)
      exact .inl ⟨_, _, found, isOther, out.resolve_left notBusy⟩

/-- Where no order of judgements finds a growing object, the search of the object that is
judged first comes upon everything that it holds. -/
theorem shallow_of_search {ended : Resolver} (intact : resolver.Intact) (has : resolver.table.Has head)
    (judging : resolver.judging = [head]) (run : searchGrowth fuel head [] [head] resolver = .ok false ended)
    (spared : ∀ other, other ≠ head → ended.growth.lookup other = some true →
      ∀ id args, ended.table.get? id ≠ some (.applied other args)) : ended.table.Shallow head := by
  obtain ⟨region, isStart, passes⟩ := region_of_search intact has judging run
  have opens {id : TypeId} (inRegion : id ∈ region) : ¬ TooDeep (ended.table.tree id) ∧
      ∀ part ∈ ended.table.constituentTrees (ended.table.tree id), ∃ other ∈ region, ended.table.tree other = part := by
    refine (passes id inRegion).resolve_left ?_
    rintro ⟨other, args, found, isOther, grows⟩
    exact spared other isOther grows id args found
  have seen {tree : TypeTree} (inside : tree ∈ ended.table.contents head) :
      ∃ id ∈ region, ended.table.tree id = tree := by
    induction inside with
    | refl => exact ⟨head, isStart, rfl⟩
    | tail _ part ih =>
        obtain ⟨id, inRegion, rfl⟩ := ih
        exact (opens inRegion).2 _ part
  intro tree inside
  obtain ⟨id, inRegion, rfl⟩ := seen inside
  exact (opens inRegion).1

/-- An object that is judged first is searched while nothing else is being judged. -/
theorem search_of_first_judgement {grows : Bool} (generic : head ∈ table.genericObjects)
    (run : growsForever (fuel + 1) head { table := table } = .ok grows final) :
    ∃ ended, searchGrowth fuel head [] [head] { table := table, judging := [head] } = .ok grows ended ∧
      final.table = ended.table ∧ final.growth = (head, grows) :: ended.growth := by
  have asked := head?_of_mem_genericObjects generic
  obtain ⟨object, found, params⟩ := generic
  unfold growsForever at run
  rw [bind_run_of_ok (ask_eq_ok.mpr ⟨asked, rfl⟩)] at run
  dsimp only at run
  rw [bind_run_of_ok (fetch_eq_ok.mpr ⟨get_eq_ok.mpr found, rfl⟩), if_neg (by simpa [TypeDef.typeParams] using params),
    get_bind_run] at run
  obtain ⟨_, begun, begins, run⟩ := bind_eq_ok.mp run
  obtain rfl : begun = { table := table, judging := [head] } := by
    simpa [beginJudging, eq_comm] using begins
  obtain ⟨_, _, searching, run⟩ := bind_eq_ok.mp run
  rw [modify_bind_run] at run
  obtain ⟨rfl, rfl⟩ := EStateM.Result.ok.inj run
  obtain ⟨ended, searched, rfl⟩ := andFinally_eq_ok.mp searching
  exact ⟨ended, searched, rfl, rfl⟩

/-- Where no order of judgements finds a growing object, all generic objects are shallow. -/
theorem NeverGrows.allShallow (never : NeverGrows table) (regular : table.Regular) : table.AllShallow := by
  intro head generic
  have has := has_of_mem_genericObjects generic
  have founded := fresh_founded regular
  obtain ⟨verdict, final, _, answers⟩ := growsForever_settles founded.intact has List.nodup_nil (by simp) (by simp)
  obtain ⟨fuel, run⟩ := answers.exists
  replace run : growsForever fuel head { table := table } = .ok verdict final := run
  cases fuel with
  | zero => cases run
  | succ fuel =>
      have judged := (growsForever_judges (fuel + 1) head).of_ok run
      obtain ⟨finalIntact, _⟩ := judged.staysIntact founded.intact
      -- Any object that was found to grow meanwhile would be found to grow when asked about next.
      have spared (other id : TypeId) (args : List TypeId) (grows : final.growth.lookup other = some true) :
          final.table.get? id ≠ some (.applied other args) := by
        intro isInstance
        obtain ⟨generic, isObject, isGeneric, _⟩ := finalIntact.regular.applied id other args isInstance
        have isHead : final.table.head? id = .ok (some other) := by
          rw [TypeTable.head?, get_eq_ok.mpr isInstance]
          rfl
        have judged : final.Judged id true :=
          .generic isHead (get_eq_ok.mpr isObject) (by simpa [TypeDef.typeParams] using isGeneric) grows
        have both : [head, id].mapM (growsForever (fuel + 1)) { table := table } = .ok [verdict, true] final := by
          rw [List.mapM_cons, bind_run_of_ok run, List.mapM_cons, bind_assoc, bind_run_of_ok (judged.run fuel)]
          rfl
        have impossible := never _ _ _ _ both true (by simp)
        cases impossible
      have single : [head].mapM (growsForever (fuel + 1)) { table := table } = .ok [verdict] final := by
        rw [List.mapM_cons, bind_run_of_ok run]
        rfl
      obtain rfl := never _ _ _ _ single verdict (by simp)
      obtain ⟨ended, searched, sameTable, sameGrowth⟩ := search_of_first_judgement generic run
      have begunIntact : Intact { table := table, judging := [head] } := ⟨regular, by simp, by simp⟩
      have shallow : ended.table.Shallow head := by
        refine shallow_of_search begunIntact has rfl searched fun other isOther grows id args => ?_
        rw [← sameTable]
        refine spared other id args ?_
        rw [sameGrowth, lookup_cons_of_ne isOther]
        exact grows
      have extends_ : table.Extends ended.table := sameTable ▸ judged.table
      exact (@shallow_extends_iff { table := table } { table := ended.table } _ founded.intact has extends_).mp shallow

end Judging
end ResolveM

namespace Resolver

theorem remains_founded : Remains fun resolver => resolver.Founded ∧ resolver.judging = [] where
  intact holds := holds.1.intact
  judging holds := holds.2
  asks extends_ unrolls := by
    have judges := onTable_judges extends_ unrolls
    have founded := asks_founded extends_ unrolls
    exact preserves_iff.mpr fun resolver holds =>
      ⟨founded.finish resolver holds.1, (judges.finish resolver).judging.trans holds.2⟩
  grows fuel id := preserves_iff.mpr fun resolver holds =>
    ⟨(growsForever_founded fuel id).finish resolver holds.1,
      ((growsForever_judges fuel id).finish resolver).judging.trans holds.2⟩
  stands holds intact table growth judging :=
    ⟨holds.1.extends_ intact (table ▸ .refl _) growth, judging.trans holds.2⟩

/-- Whatever is asked next, verdicts stay founded. -/
theorem founded_leadsQueries (hooks : Registry) :
    LeadsQueries hooks (Lasts fun resolver => resolver.Founded ∧ resolver.judging = [])
      (Lasts fun resolver => resolver.Founded ∧ resolver.judging = []) :=
  (persists_leadsQueries hooks).both (persists_leadsQueries hooks) fun _ _ persists _ =>
    persists _ remains_founded

theorem Serving.founded {hooks : Registry} {resolver : Resolver} (serving : Serving hooks resolver) : resolver.Founded := by
  have both : resolver.Founded ∧ resolver.judging = [] := by
    refine serving.keeps (fun table built => ?_) (founded_leadsQueries hooks) fun resolver larger holds extends_ intact => ?_
    · exact ⟨fresh_founded built.regular, rfl⟩
    · exact ⟨holds.1.extends_ intact extends_ rfl, holds.2⟩
  exact both.1

end Resolver
end LifecycleHooks

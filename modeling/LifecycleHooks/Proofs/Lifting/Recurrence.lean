import LifecycleHooks.Proofs.Lifting.Exploration
import LifecycleHooks.Proofs.Lifting.HookPath
import LifecycleHooks.Proofs.Lifting.KeptTables
import LifecycleHooks.Proofs.Lifting.Repetition
import LifecycleHooks.Proofs.Lifting.Steadiness
import LifecycleHooks.Proofs.Types.Recurrence

/-!
# Queries that are asked again after they have failed

A query that fails for want of a type may fail at many places.  While it judges a generic object
the resolver notes nothing about that object, and while it works out an operation it keeps none,
so there the query can be asked again, and it comes to the same place.  It is different while the
resolver follows containment by value and while it reports a type, because the resolver enters a
type as visited, or as reported, before it is done with it.  A resolver that is unscathed has not
failed at such a place.
-/

namespace LifecycleHooks

open Attempt ResolveM Resolver
open TypeTable (KeepsDepths IsStable)

namespace Attempt

theorem andFinally_eq_error {State Result : Type} {action : Attempt State Result} {cleanUp : State → State}
    {state final : State} {fault : Fault} :
    andFinally action cleanUp state = .error fault final ↔
      ∃ changed, action state = .error fault changed ∧ final = cleanUp changed := by
  unfold andFinally
  cases action state <;> simp [eq_comm]

end Attempt

namespace Resolver

/-- A resolver that knows all that another one knows, of the same operations, and whose table has all depths that
were noted. -/
structure Remembers (resolver later : Resolver) : Prop extends Consults resolver later where
  depths : resolver.table.KeepsDepths later.table

instance : IsPreorder Resolver Remembers where
  refl resolver := ⟨refl_of Consults resolver, refl_of KeepsDepths resolver.table⟩
  trans _ _ _ first second :=
    ⟨trans_of Consults first.toConsults second.toConsults, trans_of KeepsDepths first.depths second.depths⟩

instance : Upholds Remembers Idle where
  lasts _ _ remembers idle := idle.extends_ remembers.toExtends

instance : Upholds Extends Idle where
  lasts _ _ extends_ idle := idle.extends_ extends_

/-- Whatever is being judged is still being judged, and has got no verdict meanwhile. -/
structure Withholds (resolver later : Resolver) : Prop where
  judging : later.judging = resolver.judging
  growth : ∀ head ∈ resolver.judging, later.growth.lookup head = resolver.growth.lookup head

instance : IsPreorder Resolver Withholds where
  refl _ := ⟨rfl, fun _ _ => rfl⟩
  trans _ _ _ first second :=
    { judging := second.judging.trans first.judging
      growth := fun head member =>
        (second.growth head (first.judging ▸ member)).trans (first.growth head member) }

/-- Every type that counts as reported can be named. -/
def Named (resolver : Resolver) : Prop :=
  ∀ id ∈ resolver.reported, ∃ name, resolver.table.spell id = .ok name

/-- A resolver that was not cut short while it followed containment by value or reported a type: from every type
visited containment was followed to its end, and every type that counts as reported can be named. -/
structure Unscathed (resolver : Resolver) : Prop where
  explored : resolver.Explored
  named : resolver.Named

end Resolver

namespace ResolveM

section Judging

variable {relation : Resolver → Resolver → Prop} {holds fits : Resolver → Prop}

theorem ask_reruns [Upholds relation holds] {Result : Type} {question : TypeTable → Except Fault Result}
    (stable : IsStable question)
    (tables : ∀ resolver later, relation resolver later → resolver.table.Extends later.table) :
    Reruns relation holds fits (ask question) (ask question) :=
  reruns_ask fun resolver later result related => stable _ _ result (tables resolver later related)

theorem remembers_of_tables {Result : Type} {action : ResolveM Result} (consults : action.Preserves Consults)
    (keeps : action.Preserves (Tables KeepsDepths)) : action.Preserves Remembers :=
  preserves_iff.mpr fun resolver => ⟨consults.finish resolver, keeps.finish resolver⟩

theorem keepsDepths_of_returns {Result : Type} {action again : TableM Result} (returns : TableM.Returns action again) :
    action.Preserves KeepsDepths :=
  returns.preserves.mono (fun _ _ => TypeTable.KeepsNotes.depths) fun _ _ => TypeTable.KeepsNotes.depths

theorem body_depths (id : TypeId) : (TableM.body id).Preserves KeepsDepths :=
  keepsDepths_of_returns (TableM.body_returns id)

theorem nesting_depths (id : TypeId) : (TableM.nesting id).Preserves KeepsDepths :=
  keepsDepths_of_returns (TableM.nesting_returns id)

theorem onTable_reruns {Result : Type} {action : TableM Result} (returns : TableM.Returns action action)
    (judges : (onTable action).Preserves Judges) [Upholds Remembers holds] :
    Reruns Remembers holds fits (onTable action) (onTable action) := by
  have preserves : (onTable action).Preserves Remembers :=
    remembers_of_tables (judges.mono (fun _ _ => Judges.consults) fun _ _ => Judges.consults)
      (onTable_tables (keepsDepths_of_returns returns))
  exact returns.onPart preserves (fun _ _ remembers => ⟨remembers.table, remembers.depths⟩) (fun _ _ => rfl)
    fun _ => rfl

theorem constituents_reruns [Upholds Remembers holds] (id : TypeId) :
    Reruns Remembers holds fits (onTable (TableM.constituents id)) (onTable (TableM.constituents id)) :=
  onTable_reruns (TableM.constituents_returns id) (constituents_judges id)

theorem fetch_reruns [Upholds Remembers holds] (id : TypeId) :
    Reruns Remembers holds fits (fetch id) (fetch id) :=
  ask_reruns (TypeTable.stable_get id) fun _ _ remembers => remembers.table

end Judging

section Growth

/-- What comes of a judgement when it is repeated, whatever was known before. -/
abbrev JudgesAgain {Result : Type} (action again : ResolveM Result) : Prop :=
  Reruns Remembers (fun _ => True) (fun _ => True) action again

theorem isTooDeep_again (id : TypeId) : JudgesAgain (isTooDeep id) (isTooDeep id) := by
  refine (fetch_reruns id).bind fun type => ?_
  cases type with
  | applied head args =>
      exact (onTable_reruns (TableM.nesting_returns id) (nesting_judges id)).bind fun _ => reruns_pure _
  | _ => exact reruns_pure _

theorem isFollowed_again {fuel more : Nat} (judges : ∀ id, JudgesAgain (growsForever fuel id) (growsForever more id))
    (head id : TypeId) : JudgesAgain (isFollowed head fuel id) (isFollowed head more id) := by
  refine (fetch_reruns id).bind fun type => ?_
  cases type with
  | applied other args =>
      change JudgesAgain (if other = head then _ else _) (if other = head then _ else _)
      split
      · exact reruns_pure _
      · refine reruns_get_bind (fun resolver later remembers => ?_) fun resolver => ?_
        · rw [remembers.judging]
        · split
          · exact reruns_pure _
          · exact (judges id).bind fun _ => reruns_pure _
  | _ => exact reruns_pure _

theorem visitForGrowth_again {fuel more : Nat}
    (judges : ∀ id, JudgesAgain (growsForever fuel id) (growsForever more id)) (head id : TypeId) :
    JudgesAgain (visitForGrowth head fuel id) (visitForGrowth head more id) := by
  refine (isFollowed_again judges head id).bind fun followed => ?_
  split
  · refine (isTooDeep_again id).bind fun tooDeep => ?_
    split
    · exact reruns_pure _
    · exact (constituents_reruns id).bind fun _ => reruns_pure _
  · exact reruns_pure _

theorem search_reruns {holds fits : Resolver → Prop} [Upholds Remembers holds]
    {visit : Nat → TypeId → ResolveM (Option (List TypeId))} {fuel more : Nat} (enough : fuel ≤ more)
    (visits : ∀ less < fuel, ∀ larger, less ≤ larger → ∀ id,
      Reruns Remembers holds fits (visit less id) (visit larger id))
    (seen pending : List TypeId) :
    Reruns Remembers holds fits (search visit fuel seen pending) (search visit more seen pending) := by
  induction fuel generalizing more seen pending with
  | zero => exact reruns_throw (by simp) _
  | succ fuel ih =>
      obtain ⟨more, rfl⟩ : ∃ less, more = less + 1 := ⟨more - 1, by omega⟩
      have rest (seen pending : List TypeId) :
          Reruns Remembers holds fits (search visit fuel seen pending) (search visit more seen pending) :=
        ih (by omega) (fun less bound => visits less (by omega)) seen pending
      cases pending with
      | nil => exact reruns_pure _
      | cons id pending =>
          rw [search, search]
          split
          · exact rest seen pending
          · refine (visits fuel (by omega) more (by omega) id).bind fun found => ?_
            cases found with
            | none => exact reruns_pure _
            | some next => exact rest (id :: seen) (next ++ pending)

/-- Judge a generic object on which there is no verdict. -/
def judge (fuel : Nat) (head : TypeId) : ResolveM Bool := do
  beginJudging head
  let grows ← Attempt.andFinally (searchGrowth fuel head [] [head])
    fun resolver => { resolver with judging := resolver.judging.erase head }
  modify fun resolver => { resolver with growth := (head, grows) :: resolver.growth }
  return grows

theorem growsForever_unjudged {id head : TypeId} {type : TypeDef} {resolver : Resolver}
    (asked : resolver.table.head? id = .ok (some head)) (isHead : resolver.table.get head = .ok type)
    (generic : type.typeParams.isEmpty = false) (unknown : resolver.growth.lookup head = none) (fuel : Nat) :
    growsForever (fuel + 1) id resolver = judge fuel head resolver := by
  unfold growsForever
  rw [bind_run_of_ok (ask_eq_ok.mpr ⟨asked, rfl⟩)]
  dsimp only
  rw [bind_run_of_ok (fetch_eq_ok.mpr ⟨isHead, rfl⟩), if_neg (by simp [generic]), get_bind_run, unknown]
  rfl

/-- A judgement is given without further ado, unless a generic object has to be judged first. -/
theorem growsForever_cases (id : TypeId) (resolver : Resolver) :
    (∃ answer : Except Fault Bool, ∀ fuel, growsForever (fuel + 1) id resolver = Attempt.ofExcept answer resolver) ∨
      ∃ head type, resolver.table.head? id = .ok (some head) ∧ resolver.table.get head = .ok type ∧
        type.typeParams.isEmpty = false ∧ resolver.growth.lookup head = none := by
  cases asked : resolver.table.head? id with
  | error fault =>
      refine .inl ⟨.error fault, fun fuel => ?_⟩
      unfold growsForever
      rw [bind_run, ask, get_bind_run, asked]
      rfl
  | ok answer =>
      cases answer with
      | none => exact .inl ⟨.ok false, (Judged.headless asked).run⟩
      | some head =>
          cases isHead : resolver.table.get head with
          | error fault =>
              refine .inl ⟨.error fault, fun fuel => ?_⟩
              unfold growsForever
              rw [bind_run_of_ok (ask_eq_ok.mpr ⟨asked, rfl⟩)]
              dsimp only
              rw [bind_run, fetch, ask, get_bind_run, isHead]
              rfl
          | ok type =>
              cases generic : type.typeParams.isEmpty with
              | true => exact .inl ⟨.ok false, (Judged.plain asked isHead generic).run⟩
              | false =>
                  cases known : resolver.growth.lookup head with
                  | some grows => exact .inl ⟨.ok grows, (Judged.generic asked isHead generic known).run⟩
                  | none => exact .inr ⟨head, type, rfl, isHead, generic, known⟩

section Withholding

theorem onTable_withholds {Result : Type} (action : TableM Result) : (onTable action).Preserves Withholds := by
  have trivially : action.Preserves fun _ _ => True := fun table => by split <;> trivial
  exact preserves_onPart trivially fun _ _ _ => ⟨rfl, fun _ _ => rfl⟩

section Visiting

variable {fuel : Nat} (judges : ∀ id resolver,
  (∀ head, resolver.table.head? id = .ok (some head) → head ∉ resolver.judging) →
    Withholds resolver ((growsForever fuel id).finish resolver))

include judges

theorem isFollowed_withholds (head id : TypeId) : (isFollowed head fuel id).Preserves Withholds := by
  have fetches : (fetch id).Preserves Withholds := ask_leads _
  refine preserves_iff.mpr fun resolver => ?_
  refine finish_bind (fun _ middle run => fetches.of_error run) fun type middle run => ?_
  obtain ⟨isType, rfl⟩ := fetch_eq_ok.mp run
  cases type with
  | applied other args =>
      change middle.Withholds (finish (if other = head then _ else _) middle)
      split
      · exact refl_of Withholds middle
      · rw [finish_get_bind]
        split
        · exact refl_of Withholds middle
        · rename_i free
          have judged := judges id middle fun next asked => by
            unfold TypeTable.head? at asked
            rw [isType] at asked
            exact Option.some.inj (Except.ok.inj asked) ▸ free
          refine finish_bind (fun _ last run => ?_) fun grows last run => ?_
          · rwa [finish_of_error run] at judged
          · rwa [finish_of_ok run] at judged
  | _ => exact refl_of Withholds middle

theorem visitForGrowth_withholds (head id : TypeId) : (visitForGrowth head fuel id).Preserves Withholds := by
  refine (isFollowed_withholds judges head id).bind fun followed => ?_
  split
  · exact openType_leads (fun _ => onTable_withholds _) (fun _ => onTable_withholds _) id
  · exact leads_pure _

end Visiting

theorem judge_withholds {fuel : Nat} {head : TypeId} {resolver : Resolver}
    (searches : (searchGrowth fuel head [] [head]).Preserves Withholds) (free : head ∉ resolver.judging) :
    Withholds resolver ((judge fuel head).finish resolver) := by
  let begun : Resolver := { resolver with judging := head :: resolver.judging }
  have ends {changed : Resolver} (withholds : begun.Withholds changed) :
      Withholds resolver { changed with judging := changed.judging.erase head } :=
    { judging := by simp [withholds.judging, begun]
      growth := fun other member => withholds.growth other (List.mem_cons_of_mem head member) }
  change Withholds resolver (finish (andFinally _ _ >>= _) begun)
  refine finish_bind (fun _ middle run => ?_) fun grows middle run => ?_
  · obtain ⟨changed, searched, rfl⟩ := andFinally_eq_error.mp run
    exact ends (searches.of_error searched)
  · obtain ⟨changed, searched, rfl⟩ := andFinally_eq_ok.mp run
    have withholds := ends (searches.of_ok searched)
    -- The new verdict is on an object that is being judged no longer.
    refine ⟨withholds.judging, fun other member => ?_⟩
    have differ : other ≠ head := fun same => free (same ▸ member)
    exact (lookup_cons_of_ne differ).trans (withholds.growth other member)

/-- Judging an object that is not being judged gives no verdict on one that is. -/
theorem growsForever_withholds (fuel : Nat) (id : TypeId) (resolver : Resolver)
    (free : ∀ head, resolver.table.head? id = .ok (some head) → head ∉ resolver.judging) :
    Withholds resolver ((growsForever fuel id).finish resolver) := by
  induction fuel using Nat.strongRecOn generalizing id resolver with
  | ind fuel ih =>
      cases fuel with
      | zero => exact refl_of Withholds resolver
      | succ fuel =>
          rcases growsForever_cases id resolver with ⟨answer, run⟩ | ⟨head, type, asked, isHead, generic, unknown⟩
          · unfold finish
            rw [run fuel]
            cases answer <;> exact refl_of Withholds resolver
          · have searches : (searchGrowth fuel head [] [head]).Preserves Withholds := by
              rw [searchGrowth_eq_search]
              exact search_leads (fun less below other =>
                visitForGrowth_withholds (fun other before => ih less (by omega) other before) head other) _ _
            have judged := judge_withholds searches (free head asked)
            unfold finish at judged ⊢
            rwa [growsForever_unjudged asked isHead generic unknown fuel]

/-- A search for growth gives no verdict on an object that is being judged. -/
theorem searchGrowth_withholds (fuel : Nat) (head : TypeId) (seen pending : List TypeId) :
    (searchGrowth fuel head seen pending).Preserves Withholds := by
  rw [searchGrowth_eq_search]
  exact search_leads (fun less _ id => visitForGrowth_withholds (growsForever_withholds less) head id) _ _

end Withholding

/-- A judgement that was cut short has forgotten that it began, and stops in the same place again. -/
theorem judge_fails_again {fuel more : Nat} {head missing : TypeId} {resolver final : Resolver}
    (searches : JudgesAgain (searchGrowth fuel head [] [head]) (searchGrowth more head [] [head]))
    (unknown : resolver.growth.lookup head = none)
    (run : judge fuel head resolver = .error (.unknownId missing) final) :
    final.growth.lookup head = none ∧ judge more head final = .error (.unknownId missing) final := by
  let begun : Resolver := { resolver with judging := head :: resolver.judging }
  rcases bind_eq_error.mp run with failed | ⟨_, middle, began, run⟩
  · cases failed
  obtain ⟨_, rfl⟩ := EStateM.Result.ok.inj began
  rcases bind_eq_error.mp run with failed | ⟨grows, middle, _, ending⟩
  · obtain ⟨changed, searched, rfl⟩ := andFinally_eq_error.mp failed
    have withholds : begun.Withholds changed := (searchGrowth_withholds fuel head [] [head]).of_error searched
    have stillUnknown : changed.growth.lookup head = none :=
      (withholds.growth head List.mem_cons_self).trans unknown
    -- Begun anew, the judgement is where the search was cut short.
    have judging : changed.judging = head :: resolver.judging := withholds.judging
    have restored : head :: changed.judging.erase head = changed.judging := by
      rw [judging, List.erase_cons_head]
    have anew : { changed with judging := head :: changed.judging.erase head } = changed := by
      rw [restored]
    refine ⟨stillUnknown, bind_eq_error.mpr (.inr ⟨(), changed, ?_, ?_⟩)⟩
    · exact congrArg (EStateM.Result.ok ()) anew
    · exact bind_eq_error.mpr (.inl (andFinally_eq_error.mpr ⟨changed, searches.fails trivial searched trivial, rfl⟩))
  · cases ending

/-- A judgement is given again, or it fails for want of the same type again. -/
theorem growsForever_again {fuel more : Nat} (enough : fuel ≤ more) (id : TypeId) :
    JudgesAgain (growsForever fuel id) (growsForever more id) := by
  induction fuel using Nat.strongRecOn generalizing more id with
  | ind fuel ih =>
      cases fuel with
      | zero => exact reruns_throw (by simp) _
      | succ fuel =>
          obtain ⟨more, rfl⟩ : ∃ less, more = less + 1 := ⟨more - 1, by omega⟩
          constructor
          case preserves =>
            exact remembers_of_tables (growsForever_consults _ id) (growsForever_tables body_depths nesting_depths _ id)
          case answers =>
            intro resolver final later grows _ run remembers
            exact ((judged_of_run run).learns remembers.toLearns).run more
          case fails =>
            intro resolver final missing _ run _
            have extends_ := (growsForever_judges _ id).of_error run
            rcases growsForever_cases id resolver with ⟨answer, asks⟩ | ⟨head, type, asked, isHead, generic, unknown⟩
            · rw [asks fuel] at run
              obtain ⟨-, rfl⟩ := ofExcept_eq_error.mp run
              rw [asks more]
              exact run
            · have searches : JudgesAgain (searchGrowth fuel head [] [head]) (searchGrowth more head [] [head]) := by
                rw [searchGrowth_eq_search, searchGrowth_eq_search]
                refine search_reruns (by omega) (fun less below larger above other => ?_) _ _
                exact visitForGrowth_again (fun third => ih less (by omega) above third) head other
              rw [growsForever_unjudged asked isHead generic unknown fuel] at run
              obtain ⟨stillUnknown, again⟩ := judge_fails_again searches unknown run
              have askedAgain := extends_.table.head? asked
              rw [growsForever_unjudged askedAgain (extends_.table.get isHead) generic stillUnknown more]
              exact again

theorem byValueParts_again {fuel more : Nat} (enough : fuel ≤ more) (id : TypeId) :
    JudgesAgain (byValueParts fuel id) (byValueParts more id) := by
  refine (growsForever_again enough id).bind fun grows => ?_
  split
  · exact reruns_pure _
  · refine (fetch_reruns id).bind fun type => ?_
    split
    · exact (constituents_reruns id).bind fun _ => reruns_pure _
    · exact reruns_pure _

end Growth

section Unscathed

variable {fuel : Nat} {id missing : TypeId} {resolver final : Resolver}

/-- When the parts of a type could not be told, they are not known. -/
theorem parts_unknown (run : byValueParts fuel id resolver = .error (.unknownId missing) final) (parts : List TypeId) :
    ¬ final.Parts id parts := by
  intro known
  have again := (byValueParts_again (Nat.le_succ fuel) id).fails trivial run trivial
  have told := byValueParts_steady id 1 (fuel + 1) (by omega) _ _ _ known
  cases told.symm.trans again

/-- An exploration that is cut short has visited a type whose parts it does not know. -/
theorem explore_cut_short (run : explore fuel id resolver = .error (.unknownId missing) final) :
    ∃ other ∈ final.visited, ∀ parts, ¬ final.Parts other parts := by
  induction fuel generalizing id resolver with
  | zero => cases run
  | succ fuel ih =>
      unfold explore at run
      rw [modify_bind_run] at run
      rcases bind_eq_error.mp run with failed | ⟨parts, middle, _, run⟩
      · refine ⟨id, ?_, parts_unknown failed⟩
        rw [((byValueParts_judges fuel id).of_error failed).visited]
        exact List.mem_cons_self
      · rw [modify_bind_run] at run
        rcases bind_eq_error.mp run with failed | ⟨_, _, _, ending⟩
        · obtain ⟨part, _, before, failed⟩ := forM_eq_error failed
          rw [get_bind_run] at failed
          split at failed
          · exact ih failed
          · cases failed
        · cases ending

theorem exploreOnce_scathes (run : exploreOnce fuel id resolver = .error (.unknownId missing) final) :
    ¬ final.Unscathed := by
  intro unscathed
  unfold exploreOnce at run
  rw [get_bind_run] at run
  split at run
  · obtain ⟨changed, failed, rfl⟩ := andFinally_eq_error.mp run
    obtain ⟨other, visited, unknown⟩ := explore_cut_short failed
    obtain ⟨parts, known, -⟩ := unscathed.explored.parts other visited
    exact unknown parts (known.learns ⟨.refl _, fun _ _ known => known⟩)
  · cases run

/-- What can be spelled has a place of declaration. -/
theorem declaredAt_of_spelled {table : TypeTable} {id : TypeId} {name : String} (spelled : table.spell id = .ok name) :
    ∃ span, table.declaredAt id = .ok span := by
  unfold TypeTable.spell TypeTable.spellWithin at spelled
  obtain ⟨type, found, spelled⟩ := eq_ok_of_bind spelled
  unfold TypeTable.declaredAt
  rw [found, ok_bind]
  cases type with
  | applied head args =>
      obtain ⟨own, named, -⟩ := eq_ok_of_bind spelled
      unfold TypeTable.ownName at named
      rw [found, ok_bind] at named
      obtain ⟨generic, isHead, named⟩ := eq_ok_of_bind named
      dsimp only
      rw [isHead, ok_bind]
      cases generic with
      | object object => exact ⟨_, rfl⟩
      | _ => cases named
  | object object => exact ⟨_, rfl⟩
  | distinct name underlying span => exact ⟨_, rfl⟩
  | _ => exact ⟨{}, rfl⟩

theorem ask_eq_error {Result : Type} {question : TypeTable → Except Fault Result} {fault : Fault} :
    ask question resolver = .error fault final ↔ question resolver.table = .error fault ∧ final = resolver :=
  ofExcept_eq_error

/-- A report fails only on a type that cannot be named. -/
theorem reportGrowth_scathes {head : TypeId} (run : reportGrowth head resolver = .error (.unknownId missing) final) :
    ¬ final.Unscathed := by
  intro unscathed
  unfold reportGrowth at run
  rw [get_bind_run] at run
  split at run
  · rw [modify_bind_run] at run
    rcases bind_eq_error.mp run with failed | ⟨_, _, asked, run⟩
    · obtain ⟨wanting, rfl⟩ := ask_eq_error.mp failed
      obtain ⟨name, spelled⟩ := unscathed.named head List.mem_cons_self
      cases wanting.symm.trans spelled
    · obtain ⟨spelled, rfl⟩ := ask_eq_ok.mp asked
      rcases bind_eq_error.mp run with failed | ⟨_, _, _, reporting⟩
      · obtain ⟨wanting, rfl⟩ := ask_eq_error.mp failed
        obtain ⟨span, declared⟩ := declaredAt_of_spelled spelled
        cases wanting.symm.trans declared
      · cases reporting
  · cases run

theorem reportCycle_scathes {cycle : List TypeId} (inside : id ∈ cycle)
    (run : reportCycle id cycle resolver = .error (.unknownId missing) final) : ¬ final.Unscathed := by
  intro unscathed
  unfold reportCycle at run
  rw [get_bind_run] at run
  split at run
  · rw [modify_bind_run] at run
    have spells (member : TypeId) : (ask (·.spell member)).Preserves Eq := ask_leads _
    rcases bind_eq_error.mp run with failed | ⟨_, _, asked, run⟩
    · obtain ⟨member, isMember, _, rfl, failed⟩ := mapM_eq_error (fun member _ => spells member) failed
      obtain ⟨wanting, rfl⟩ := ask_eq_error.mp failed
      obtain ⟨name, spelled⟩ := unscathed.named member (List.mem_append_left _ isMember)
      cases wanting.symm.trans spelled
    · have unchanged := (leads_mapM fun member _ => spells member).of_ok asked
      rw [← unchanged] at run
      rcases bind_eq_error.mp run with failed | ⟨_, _, _, reporting⟩
      · obtain ⟨wanting, rfl⟩ := ask_eq_error.mp failed
        obtain ⟨name, spelled⟩ := unscathed.named id (List.mem_append_left _ inside)
        obtain ⟨span, declared⟩ := declaredAt_of_spelled spelled
        cases wanting.symm.trans declared
      · cases reporting
  · cases run

/-- An unscathed resolver that could not tell whether a type is unresolvable has failed to judge a generic object. -/
theorem isUnresolvable_cut_short (idle : resolver.Idle) (unscathed : final.Unscathed)
    (run : isUnresolvable fuel id resolver = .error (.unknownId missing) final) :
    growsForever fuel id resolver = .error (.unknownId missing) final := by
  unfold isUnresolvable at run
  rcases bind_eq_error.mp run with failed | ⟨grows, middle, judging, run⟩
  · exact failed
  exfalso
  have judged := judged_of_run judging
  have judges := ((growsForever_judges fuel id).of_ok judging).consults.toExtends
  cases grows with
  | true =>
      rw [if_pos rfl] at run
      rcases bind_eq_error.mp run with failed | ⟨_, _, _, run⟩
      · obtain ⟨wanting, -⟩ := ask_eq_error.mp failed
        cases judged with
        | generic asked => cases wanting.symm.trans asked
      · rcases bind_eq_error.mp run with failed | ⟨_, _, _, ending⟩
        · exact reportGrowth_scathes failed unscathed
        · cases ending
  | false =>
      rw [if_neg (by simp)] at run
      rcases bind_eq_error.mp run with failed | ⟨_, explored, exploring, run⟩
      · exact exploreOnce_scathes failed unscathed
      · have explores := ((exploreOnce_consults fuel id).of_ok exploring).toExtends
        have exploredIdle := idle.extends_ (judges.trans explores)
        rw [get_bind_run] at run
        cases onCycle : explored.cycles.lookup id with
        | none =>
            rw [onCycle] at run
            cases run
        | some cycle =>
            rw [onCycle] at run
            rcases bind_eq_error.mp run with failed | ⟨_, _, _, ending⟩
            · exact reportCycle_scathes (exploredIdle.cycles _ (mem_of_lookup onCycle)) failed unscathed
            · cases ending

end Unscathed

section Operations

/-- What comes of a question to a resolver between two explorations when it is repeated, as long as the resolver is
unscathed. -/
abbrev AsksAgain {Result : Type} (action again : ResolveM Result) : Prop :=
  Reruns Remembers Idle Unscathed action again

variable {fuel more : Nat} (enough : fuel ≤ more)

include enough

theorem isUnresolvable_again (id : TypeId) : AsksAgain (isUnresolvable fuel id) (isUnresolvable more id) where
  preserves := by
    have tables := (tables_leadsQueries body_depths nesting_depths {}).unresolvable fuel id
    exact remembers_of_tables (isUnresolvable_consults fuel id) tables
  answers {resolver final later answer} idle run remembers := by
    obtain ⟨less, rfl⟩ : ∃ less, fuel = less + 1 := by
      cases fuel with
      | zero => cases run
      | succ less => exact ⟨less, rfl⟩
    obtain ⟨more, rfl⟩ : ∃ less, more = less + 1 := ⟨more - 1, by omega⟩
    have settled := settled_of_run idle run
    have finalIdle := idle.extends_ ((isUnresolvable_consults _ id).of_ok run).toExtends
    cases answer with
    | true => exact (Held.extends_ settled finalIdle remembers.toExtends).run more
    | false => exact (Clear.extends_ settled finalIdle remembers.toExtends).run more
  fails {resolver final missing} idle run unscathed := by
    have failed := isUnresolvable_cut_short idle unscathed run
    exact bind_eq_error.mpr (.inl ((growsForever_again enough id).fails trivial failed trivial))

omit enough in
theorem known?_again (id : TypeId) (kind : OpKind) : AsksAgain (known? id kind) (known? id kind) :=
  reruns_get_bind (fun resolver later remembers => by rw [remembers.unresolved]) fun _ => reruns_pure _

omit enough in
theorem relevantSlots_again (id : TypeId) (kind : OpKind) :
    AsksAgain (relevantSlots id kind) (relevantSlots id kind) := by
  refine (fetch_reruns id).bind fun type => ?_
  split
  · exact constituents_reruns id
  · exact reruns_pure _

omit enough in
theorem governingHook?_again (hooks : Registry) (id : TypeId) (kind : OpKind) :
    AsksAgain (ask (·.governingHook? hooks id kind)) (ask (·.governingHook? hooks id kind)) :=
  ask_reruns (TypeTable.stable_governingHook? hooks id kind) fun _ _ remembers => remembers.table

theorem visitForHook_again (hooks : Registry) (kind : OpKind) (id : TypeId) :
    AsksAgain (visitForHook hooks kind fuel id) (visitForHook hooks kind more id) := by
  refine (isUnresolvable_again enough id).bind fun unresolvable => ?_
  split
  · exact reruns_pure _
  · refine (known?_again id kind).bind fun known => ?_
    cases known with
    | some outcome => exact reruns_pure _
    | none =>
        refine (governingHook?_again hooks id kind).bind fun entry => ?_
        split
        · exact reruns_pure _
        · exact (relevantSlots_again id kind).bind fun _ => reruns_pure _

theorem reachesHook_again (hooks : Registry) (id : TypeId) (kind : OpKind) :
    AsksAgain (reachesHook hooks fuel id kind) (reachesHook hooks more id kind) := by
  refine (known?_again id kind).bind fun known => ?_
  cases known with
  | some outcome => exact reruns_pure _
  | none =>
      dsimp only
      rw [searchHook_eq_search, searchHook_eq_search]
      exact search_reruns enough (fun less _ larger above other => visitForHook_again above hooks kind other) _ _

theorem determine_again (hooks : Registry) (id : TypeId) (kind : OpKind) :
    AsksAgain (determine hooks fuel id kind) (determine hooks more id kind) := by
  refine (isUnresolvable_again enough id).bind fun unresolvable => ?_
  split
  · exact reruns_pure _
  · refine (governingHook?_again hooks id kind).bind fun entry => ?_
    cases entry with
    | some entry => exact reruns_pure _
    | none =>
        refine (relevantSlots_again id kind).bind fun slots => ?_
        split
        · exact reruns_pure _
        · refine (reachesHook_again enough hooks id kind).bind fun reaches => ?_
          split
          · exact (reruns_filterM fun slot _ => reachesHook_again enough hooks slot.type kind).bind
              fun _ => reruns_pure _
          · exact reruns_pure _

/-- An operation that could not be worked out was not kept. -/
theorem resolve_fails_again {hooks : Registry} {id missing : TypeId} {kind : OpKind} {resolver final : Resolver}
    (idle : resolver.Idle) (unscathed : final.Unscathed)
    (run : resolve hooks fuel id kind resolver = .error (.unknownId missing) final) :
    resolve hooks more id kind final = .error (.unknownId missing) final := by
  unfold resolve at run ⊢
  split at run
  · cases run
  · rename_i frozen
    rw [known?_bind_run] at run
    cases unknown : resolver.operations.lookup (id, kind) with
    | some outcome =>
        rw [unknown] at run
        cases run
    | none =>
        rw [unknown] at run
        rcases bind_eq_error.mp run with failed | ⟨_, _, _, ending⟩
        · have stillUnknown := ((determine_consults hooks fuel id kind).of_error failed).unresolved ▸ unknown
          have again := (determine_again enough hooks id kind).fails idle failed unscathed
          rw [if_neg frozen, known?_bind_run, stillUnknown]
          exact bind_eq_error.mpr (.inl again)
        · cases ending

end Operations

section Plans

/-- What comes of a question to a resolver that may work out operations when it is repeated. -/
abbrev PlansAgain {Result : Type} (action again : ResolveM Result) : Prop :=
  Reruns Extends Idle Unscathed action again

variable {fuel more : Nat} (enough : fuel ≤ more)

include enough

theorem resolve_again (hooks : Registry) (id : TypeId) (kind : OpKind) :
    PlansAgain (resolve hooks fuel id kind) (resolve hooks more id kind) where
  preserves := resolve_extends hooks fuel id kind
  answers _ run extends_ :=
    resolve_steady hooks id kind fuel more enough _ _ _ ((resolve_repeats hooks fuel id kind).again run extends_)
  fails idle run unscathed := resolve_fails_again enough idle unscathed run

omit enough in
theorem body_again (id : TypeId) : PlansAgain (onTable (TableM.body id)) (onTable (TableM.body id)) where
  preserves := (body_repeats id).preserves
  answers _ run extends_ := (body_repeats id).again run extends_
  fails idle run unscathed := (onTable_reruns (TableM.body_returns id) (body_judges id)).fails idle run unscathed

omit enough in
theorem convertedPlace_again (id : TypeId) (place : String) :
    PlansAgain (convertedPlace id place) (convertedPlace id place) :=
  (ask_reruns (TypeTable.stable_spell id) fun _ _ extends_ => extends_.table).bind fun _ => reruns_pure _

omit enough in
theorem slotPlace_again (slot : Slot) (place : String) : PlansAgain (slotPlace slot place) (slotPlace slot place) := by
  unfold slotPlace
  cases slot.step with
  | field name => exact reruns_pure _
  | tupleElement index => exact reruns_pure _
  | pointee => exact reruns_pure _
  | base => exact convertedPlace_again _ _
  | underlying => exact convertedPlace_again _ _
  | element count => exact convertedPlace_again _ _

theorem destroyedBase?_again (hooks : Registry) (id : TypeId) (kind : OpKind) :
    PlansAgain (destroyedBase? hooks fuel id kind) (destroyedBase? hooks more id kind) := by
  cases kind with
  | destroy =>
      refine (body_again id).bind fun body => ?_
      cases body.base with
      | none => exact reruns_pure _
      | some base =>
          refine (resolve_again enough hooks base .destroy).bind fun operation => ?_
          split <;> exact reruns_pure _
  | _ => exact reruns_pure _

omit enough in
theorem expandSlot_again {plan again : TypeId → String → ResolveM (List CallNode)}
    (plans : ∀ id place, PlansAgain (plan id place) (again id place)) (place : String) (slot : Slot) :
    PlansAgain (expandSlot plan place slot) (expandSlot again place slot) := by
  unfold expandSlot
  split
  · exact (reruns_mapM fun _ _ => plans _ _).bind fun _ => reruns_pure _
  · exact (plans _ _).bind fun _ => reruns_pure _
  · exact (slotPlace_again slot place).bind fun _ => plans _ _

theorem expandWithin_again (hooks : Registry) (kind : OpKind) (active : List TypeId) (id : TypeId) (place : String) :
    PlansAgain (expandWithin hooks kind fuel active id place) (expandWithin hooks kind more active id place) := by
  induction fuel generalizing more active id place with
  | zero => exact reruns_throw (by simp) _
  | succ fuel ih =>
      obtain ⟨more, rfl⟩ : ∃ less, more = less + 1 := ⟨more - 1, by omega⟩
      have less : fuel ≤ more := by omega
      rw [expandWithin_succ, expandWithin_succ]
      refine (resolve_again less hooks id kind).bind fun operation => ?_
      cases operation.outcome with
      | builtIn => exact reruns_pure _
      | overridden entry =>
          refine (destroyedBase?_again less hooks id kind).bind fun base? => ?_
          cases base? with
          | none => exact reruns_pure _
          | some base =>
              dsimp only
              split
              · exact reruns_pure _
              · exact (convertedPlace_again base place).bind fun _ => (ih less _ base _).bind fun _ => reruns_pure _
      | lifted steps =>
          dsimp only
          split
          · exact reruns_pure _
          · exact (reruns_mapM fun slot _ => expandSlot_again (ih less _) place slot).bind fun _ => reruns_pure _

end Plans
end ResolveM

namespace Query

/-- Whether a query asks about a single type and for nothing but its verdict, its operation or its plan of calls. -/
def isSingle : Query → Bool
  | .isUnresolvable _ | .resolve .. | .expand .. => true
  | .operationTable _ | .copyPlan .. => false

/-- Asked again about a single type, with no smaller budget, an unscathed resolver fails for want of the same type. -/
theorem ask_fails_again {hooks : Registry} {query : Query} {fuel more : Nat} {missing : TypeId}
    {resolver final : Resolver} (single : query.isSingle = true) (enough : fuel ≤ more) (idle : resolver.Idle)
    (unscathed : final.Unscathed) (run : query.ask hooks fuel resolver = .error (.unknownId missing) final) :
    query.ask hooks more final = .error (.unknownId missing) final := by
  cases query with
  | isUnresolvable id =>
      have again := (isUnresolvable_again enough id).bind fun _ => reruns_pure ()
      exact again.fails idle run unscathed
  | resolve id kind =>
      have again := (resolve_again enough hooks id kind).bind fun _ => reruns_pure ()
      exact again.fails idle run unscathed
  | expand id kind place =>
      have again := (expandWithin_again enough hooks kind [] id place).bind fun _ => reruns_pure ()
      exact again.fails idle run unscathed
  | operationTable ids => cases single
  | copyPlan id place => cases single

end Query
end LifecycleHooks

import LifecycleHooks.Proofs.Lifting.Queries

/-!
# Settled verdicts

Once a resolver was asked whether a type has no finite structure, it has settled the
matter: the type is held to be unresolvable or it is clear, and no later query
changes that.
-/

namespace LifecycleHooks

namespace Resolver

open Attempt ResolveM

/-- It is known whether the generic object behind a type grows without end. -/
inductive Judged (resolver : Resolver) (id : TypeId) : Bool → Prop where
  | headless (none : resolver.table.head? id = .ok none) : Judged resolver id false
  | plain {head : TypeId} {type : TypeDef} (some : resolver.table.head? id = .ok (some head))
      (isHead : resolver.table.get head = .ok type) (notGeneric : type.typeParams.isEmpty = true) :
      Judged resolver id false
  | generic {head : TypeId} {type : TypeDef} {grows : Bool}
      (some : resolver.table.head? id = .ok (some head))
      (isHead : resolver.table.get head = .ok type) (isGeneric : type.typeParams.isEmpty = false)
      (known : resolver.growth.lookup head = .some grows) : Judged resolver id grows

theorem Judged.learns {resolver later : Resolver} {id : TypeId} {grows : Bool}
    (judged : resolver.Judged id grows) (learns : resolver.Learns later) :
    later.Judged id grows := by
  cases judged with
  | headless none => exact .headless (learns.table.head? none)
  | plain some isHead notGeneric =>
      exact .plain (learns.table.head? some) (learns.table.get isHead) notGeneric
  | generic some isHead isGeneric known =>
      exact .generic (learns.table.head? some) (learns.table.get isHead) isGeneric
        (learns.growth _ _ known)

/-- A known verdict is given at once. -/
theorem Judged.run {resolver : Resolver} {id : TypeId} {grows : Bool}
    (judged : resolver.Judged id grows) (fuel : Nat) :
    growsForever (fuel + 1) id resolver = .ok grows resolver := by
  unfold growsForever
  cases judged with
  | headless none =>
      rw [bind_run_of_ok (ask_eq_ok.mpr ⟨none, rfl⟩)]
      rfl
  | plain some isHead notGeneric =>
      rw [bind_run_of_ok (ask_eq_ok.mpr ⟨some, rfl⟩)]
      dsimp only
      rw [bind_run_of_ok (fetch_eq_ok.mpr ⟨isHead, rfl⟩), if_pos notGeneric]
      rfl
  | generic some isHead isGeneric known =>
      rw [bind_run_of_ok (ask_eq_ok.mpr ⟨some, rfl⟩)]
      dsimp only
      rw [bind_run_of_ok (fetch_eq_ok.mpr ⟨isHead, rfl⟩), if_neg (by simp [isGeneric]),
        get_bind_run, known]
      rfl

/-- A verdict that was given is known from then on. -/
theorem judged_of_run {fuel : Nat} {resolver final : Resolver} {id : TypeId} {grows : Bool}
    (run : growsForever fuel id resolver = .ok grows final) : final.Judged id grows := by
  have judges := (growsForever_judges fuel id).of_ok run
  cases fuel with
  | zero => cases run
  | succ fuel =>
      unfold growsForever at run
      obtain ⟨answer, middle, asked, run⟩ := bind_eq_ok.mp run
      obtain ⟨isHead, unchanged⟩ := ask_eq_ok.mp asked
      rw [unchanged] at run
      cases answer with
      | none =>
          obtain ⟨rfl, rfl⟩ := EStateM.Result.ok.inj run
          exact .headless isHead
      | some head =>
          obtain ⟨type, middle, asked, run⟩ := bind_eq_ok.mp run
          obtain ⟨isType, unchanged⟩ := fetch_eq_ok.mp asked
          rw [unchanged] at run
          have laterHead := judges.table.head? isHead
          have laterType := judges.table.get isType
          split at run
          · rename_i notGeneric
            obtain ⟨rfl, rfl⟩ := EStateM.Result.ok.inj run
            exact .plain laterHead laterType notGeneric
          · rename_i isGeneric
            refine .generic laterHead laterType (by simpa using isGeneric) ?_
            rw [get_bind_run] at run
            cases remembered : resolver.growth.lookup head with
            | some known =>
                rw [remembered] at run
                obtain ⟨rfl, rfl⟩ := EStateM.Result.ok.inj run
                exact remembered
            | none =>
                rw [remembered] at run
                obtain ⟨_, begun, _, run⟩ := bind_eq_ok.mp run
                obtain ⟨verdict, searched, _, run⟩ := bind_eq_ok.mp run
                rw [modify_bind_run] at run
                obtain ⟨rfl, rfl⟩ := EStateM.Result.ok.inj run
                simp

/-- A type that the resolver holds to have no finite structure.  It was reported
when that was found. -/
inductive Held (resolver : Resolver) (id : TypeId) : Prop where
  | grows {head : TypeId} (judged : resolver.Judged id true)
      (isHead : resolver.table.head? id = .ok (some head)) (reported : head ∈ resolver.reported)
  | cyclic {cycle : List TypeId} (judged : resolver.Judged id false)
      (visited : id ∈ resolver.visited) (onCycle : resolver.cycles.lookup id = some cycle)
      (reported : id ∈ resolver.reported)

/-- A type that the resolver holds to have a finite structure. -/
structure Clear (resolver : Resolver) (id : TypeId) : Prop where
  judged : resolver.Judged id false
  visited : id ∈ resolver.visited
  onNoCycle : resolver.cycles.lookup id = none

/-- No exploration is going on, and each cycle holds the type that it was kept for. -/
structure Idle (resolver : Resolver) : Prop where
  links : resolver.links = []
  cycles : ∀ entry ∈ resolver.cycles, entry.1 ∈ entry.2

theorem Idle.extends_ {resolver later : Resolver} (idle : resolver.Idle)
    (extends_ : resolver.Extends later) : later.Idle where
  links := extends_.rest idle.links
  cycles := by
    obtain ⟨more, moreCycles, moreNew⟩ := extends_.cycles
    intro entry member
    rw [moreCycles] at member
    rcases List.mem_append.mp member with early | late
    · exact idle.cycles entry early
    · exact (moreNew entry late).1

theorem Held.extends_ {resolver later : Resolver} {id : TypeId} (held : resolver.Held id)
    (idle : resolver.Idle) (extends_ : resolver.Extends later) : later.Held id := by
  cases held with
  | grows judged isHead reported =>
      exact .grows (judged.learns extends_.toLearns) (extends_.table.head? isHead)
        (extends_.reported reported)
  | cyclic judged visited onCycle reported =>
      exact .cyclic (judged.learns extends_.toLearns) (extends_.visited visited)
        ((extends_.lookup_cycles idle.links visited).trans onCycle) (extends_.reported reported)

theorem Clear.extends_ {resolver later : Resolver} {id : TypeId} (clear : resolver.Clear id)
    (idle : resolver.Idle) (extends_ : resolver.Extends later) : later.Clear id where
  judged := clear.judged.learns extends_.toLearns
  visited := extends_.visited clear.visited
  onNoCycle := (extends_.lookup_cycles idle.links clear.visited).trans clear.onNoCycle

theorem exploreOnce_run {fuel : Nat} {resolver : Resolver} {id : TypeId}
    (visited : id ∈ resolver.visited) : exploreOnce fuel id resolver = .ok () resolver := by
  unfold exploreOnce
  rw [get_bind_run, if_neg (not_not.mpr visited)]
  rfl

theorem reportGrowth_run {resolver : Resolver} {head : TypeId}
    (reported : head ∈ resolver.reported) : reportGrowth head resolver = .ok () resolver := by
  unfold reportGrowth
  rw [get_bind_run, if_neg (not_not.mpr reported)]
  rfl

theorem reportCycle_run {resolver : Resolver} {id : TypeId} {cycle : List TypeId}
    (reported : id ∈ resolver.reported) : reportCycle id cycle resolver = .ok () resolver := by
  unfold reportCycle
  rw [get_bind_run, if_neg (not_not.mpr reported)]
  rfl

/-- Asked about a type that it holds to be unresolvable, the resolver says so and
learns nothing. -/
theorem Held.run {resolver : Resolver} {id : TypeId} (held : resolver.Held id) (fuel : Nat) :
    isUnresolvable (fuel + 1) id resolver = .ok true resolver := by
  unfold isUnresolvable
  cases held with
  | grows judged isHead reported =>
      rw [bind_run_of_ok (judged.run fuel), if_pos rfl,
        bind_run_of_ok (ask_eq_ok.mpr ⟨isHead, rfl⟩)]
      exact bind_run_of_ok (reportGrowth_run reported)
  | cyclic judged visited onCycle reported =>
      rw [bind_run_of_ok (judged.run fuel), if_neg (by simp),
        bind_run_of_ok (exploreOnce_run visited), get_bind_run, onCycle]
      exact bind_run_of_ok (reportCycle_run reported)

/-- Asked about a clear type, the resolver says so and learns nothing. -/
theorem Clear.run {resolver : Resolver} {id : TypeId} (clear : resolver.Clear id) (fuel : Nat) :
    isUnresolvable (fuel + 1) id resolver = .ok false resolver := by
  unfold isUnresolvable
  rw [bind_run_of_ok (clear.judged.run fuel), if_neg (by simp),
    bind_run_of_ok (exploreOnce_run clear.visited), get_bind_run, clear.onNoCycle]
  rfl

/-- A type that was said to have a finite structure is clear. -/
theorem clear_of_answer {fuel : Nat} {id : TypeId} {resolver final : Resolver}
    (run : isUnresolvable fuel id resolver = .ok false final) : final.Clear id := by
  unfold isUnresolvable at run
  obtain ⟨grows, middle, judging, run⟩ := bind_eq_ok.mp run
  cases grows with
  | true =>
      rw [if_pos rfl] at run
      obtain ⟨_, _, _, run⟩ := bind_eq_ok.mp run
      obtain ⟨_, _, _, run⟩ := bind_eq_ok.mp run
      cases run
  | false =>
      rw [if_neg (by simp)] at run
      obtain ⟨_, explored, exploring, run⟩ := bind_eq_ok.mp run
      have explores := ((exploreOnce_consults fuel id).of_ok exploring).toExtends
      rw [get_bind_run] at run
      cases onCycle : explored.cycles.lookup id with
      | none =>
          rw [onCycle] at run
          obtain ⟨_, rfl⟩ := EStateM.Result.ok.inj run
          exact ⟨(judged_of_run judging).learns explores.toLearns, visited_of_exploreOnce exploring, onCycle⟩
      | some cycle =>
          rw [onCycle] at run
          obtain ⟨_, _, _, run⟩ := bind_eq_ok.mp run
          cases run

/-- A type that was said to have no finite structure is held to have none. -/
theorem held_of_answer {fuel : Nat} {id : TypeId} {resolver final : Resolver} (idle : resolver.Idle)
    (run : isUnresolvable fuel id resolver = .ok true final) : final.Held id := by
  unfold isUnresolvable at run
  obtain ⟨grows, middle, judging, run⟩ := bind_eq_ok.mp run
  have judged := judged_of_run judging
  have judges := (growsForever_consults fuel id).of_ok judging
  cases grows with
  | true =>
      rw [if_pos rfl] at run
      obtain ⟨head, middle, asked, run⟩ := bind_eq_ok.mp run
      obtain ⟨isHead, unchanged⟩ := ask_eq_ok.mp asked
      rw [unchanged] at run
      obtain ⟨_, reported, reporting, run⟩ := bind_eq_ok.mp run
      obtain ⟨_, rfl⟩ := EStateM.Result.ok.inj run
      have later := ((reportGrowth_consults _).of_ok reporting).toExtends
      cases head with
      | none =>
          cases judged with
          | generic some => cases isHead.symm.trans some
      | some head =>
          exact .grows (judged.learns later.toLearns) (later.table.head? isHead)
            (reported_of_reportGrowth reporting)
  | false =>
      rw [if_neg (by simp)] at run
      obtain ⟨_, explored, exploring, run⟩ := bind_eq_ok.mp run
      have visited := visited_of_exploreOnce exploring
      have explores := ((exploreOnce_consults fuel id).of_ok exploring).toExtends
      have exploredIdle := (idle.extends_ judges.toExtends).extends_ explores
      rw [get_bind_run] at run
      cases onCycle : explored.cycles.lookup id with
      | none =>
          rw [onCycle] at run
          cases run
      | some cycle =>
          rw [onCycle] at run
          obtain ⟨_, reported, reporting, run⟩ := bind_eq_ok.mp run
          obtain ⟨_, rfl⟩ := EStateM.Result.ok.inj run
          have later := ((reportCycle_consults id cycle).of_ok reporting).toExtends
          have member := mem_of_lookup onCycle
          exact .cyclic ((judged.learns explores.toLearns).learns later.toLearns) (later.visited visited)
            ((later.lookup_cycles exploredIdle.links visited).trans onCycle)
            (reported_of_reportCycle (exploredIdle.cycles _ member) reporting)

/-- Once it was asked, the resolver holds a type to be unresolvable or it is clear,
just as it said. -/
theorem settled_of_run {fuel : Nat} {id : TypeId} {resolver final : Resolver} {answer : Bool}
    (idle : resolver.Idle) (run : isUnresolvable fuel id resolver = .ok answer final) :
    if answer then final.Held id else final.Clear id := by
  cases answer with
  | true => exact held_of_answer idle run
  | false => exact clear_of_answer run

end Resolver
end LifecycleHooks

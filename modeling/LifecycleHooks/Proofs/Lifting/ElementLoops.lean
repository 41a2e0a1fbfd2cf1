import LifecycleHooks.Proofs.Lifting.CallOrder
import LifecycleHooks.Proofs.Lifting.IndexText
import LifecycleHooks.Proofs.Lifting.PlaceSteps

/-!
# Plans carried out

A plan is carried out by running the body of each loop for every element of its sequence.  The
places in a body stand for places of elements, and which ones depends on how their indices are
read.  Where each index belongs to its own loop, the plan calls each hook that the recursion
comes to exactly once, however long the sequences are.  All indices have the same name, though.
Read by that name they belong to the innermost loop, which comes to the same only as long as no
loop is inside of another one.
-/

namespace LifecycleHooks

/-- Whether a hook is called. -/
def CallNode.isHook (node : CallNode) : Prop := ∃ call, node = .hook call

instance : DecidablePred CallNode.isHook
  | .hook call => isTrue ⟨call, rfl⟩
  | .lifted .. | .elements .. => isFalse (by simp [CallNode.isHook])

mutual

/-- The calls that a part of a plan makes inside of loops with the given indices, the innermost
first.  Sequences have lengths by their places. -/
def CallNode.performed (read : List Nat → String → String) (lengths : String → Nat) :
    CallNode → (indices : List Nat) → List CallNode
  | .hook call, indices => [.hook { call with place := read indices call.place }]
  | .lifted place type kind, indices => [.lifted (read indices place) type kind]
  | .elements place _ body, indices =>
      (List.range (lengths (read indices place))).flatMap fun index => performed read lengths body (index :: indices)

/-- The calls that a plan makes. -/
def performed (read : List Nat → String → String) (lengths : String → Nat) :
    List CallNode → (indices : List Nat) → List CallNode
  | [], _ => []
  | node :: rest, indices => node.performed read lengths indices ++ performed read lengths rest indices

end

mutual

/-- How many loops of a part of a plan are inside of each other. -/
def CallNode.loopDepth : CallNode → Nat
  | .hook _ | .lifted .. => 0
  | .elements _ _ body => loopDepth body + 1

/-- How many loops of a plan are inside of each other. -/
def loopDepth : List CallNode → Nat
  | [] => 0
  | node :: rest => max node.loopDepth (loopDepth rest)

end

/-- Each index of a place belongs to a loop of its own, the last one to the innermost. -/
def readByLoop (indices : List Nat) (place : String) : String :=
  readPlace (fun behind => indices[behind]?) place

/-- Each index of a place belongs to the innermost loop, since all have the same name. -/
def readByName (indices : List Nat) (place : String) : String :=
  readPlace (fun _ => indices.head?) place

/-- How places are read that stand inside of so many loops at most: each index by its own loop. -/
def ReadsLoops (read : List Nat → String → String) (most : Nat) : Prop :=
  ∀ root steps indices, IsPlain root → (∀ step ∈ steps, PlaceStep.IsLegible step) →
    steps.count .each = indices.length → indices.length ≤ most →
    read indices (placeOf root steps) = placeOf root (fillSteps (fun behind => indices[behind]?) steps)

theorem readByLoop_reads (most : Nat) : ReadsLoops readByLoop most :=
  fun _ _ _ plain legible _ _ => readPlace_placeOf plain legible _

/-- Only the numbers that are chosen for indices matter. -/
theorem fillSteps_congr {choice other : Choice} {steps : List PlaceStep}
    (same : ∀ behind < steps.count .each, choice behind = other behind) :
    fillSteps choice steps = fillSteps other steps := by
  induction steps generalizing choice other with
  | nil => rfl
  | cons step steps ih =>
      by_cases isEach : step = .each
      · subst isEach
        rw [List.count_cons_self] at same
        have outer : fillSteps choice.outer steps = fillSteps other.outer steps :=
          ih fun behind less => same (behind + 1) (by omega)
        rw [fillSteps_each, fillSteps_each, same 0 (by omega), outer]
      · rw [List.count_cons_of_ne isEach] at same
        rw [fillSteps_other isEach, fillSteps_other isEach, ih same]

/-- With one loop the name tells the index. -/
theorem readByName_reads : ReadsLoops readByName 1 := by
  intro root steps indices plain legible counted few
  rw [readByName, readPlace_placeOf plain legible]
  refine congrArg (placeOf root) (fillSteps_congr fun behind less => ?_)
  obtain rfl : behind = 0 := by omega
  exact List.head?_eq_getElem?

section Performing

variable {read : List Nat → String → String} {lengths : String → Nat}

@[simp]
theorem performed_nil (indices : List Nat) : performed read lengths [] indices = [] := by
  rw [performed]

theorem performed_cons (node : CallNode) (rest : List CallNode) (indices : List Nat) :
    performed read lengths (node :: rest) indices =
      node.performed read lengths indices ++ performed read lengths rest indices := by
  rw [performed]

theorem performed_append (nodes others : List CallNode) (indices : List Nat) :
    performed read lengths (nodes ++ others) indices =
      performed read lengths nodes indices ++ performed read lengths others indices := by
  induction nodes with
  | nil => simp
  | cons node nodes ih => rw [List.cons_append, performed_cons, ih, performed_cons, List.append_assoc]

theorem performed_hooks (calls : List HookCall) (indices : List Nat) :
    performed read lengths (calls.map .hook) indices =
      (calls.map fun call => { call with place := read indices call.place }).map .hook := by
  induction calls with
  | nil => simp
  | cons call calls ih =>
      rw [List.map_cons, performed_cons, ih, CallNode.performed]
      rfl

theorem performed_lifted (place : String) (type : TypeId) (kind : OpKind) (indices : List Nat) :
    performed read lengths [.lifted place type kind] indices = [.lifted (read indices place) type kind] := by
  rw [performed_cons, performed_nil, CallNode.performed, List.append_nil]

/-- A loop does for each element what its body does, and without a body there is nothing to do. -/
theorem performed_loop {place elsewhere : String} {type : TypeId} {body : List CallNode} {indices : List Nat}
    (reads : body ≠ [] → read indices place = elsewhere) :
    performed read lengths (if body.isEmpty then [] else [.elements place type body]) indices =
      (List.range (lengths elsewhere)).flatMap fun index => performed read lengths body (index :: indices) := by
  cases body with
  | nil => simp
  | cons node body =>
      rw [← reads (by simp), List.isEmpty_cons, if_neg Bool.false_ne_true, performed_cons, CallNode.performed,
        performed_nil, List.append_nil]

@[simp]
theorem loopDepth_nil : loopDepth [] = 0 := by
  rw [loopDepth]

theorem loopDepth_cons (node : CallNode) (rest : List CallNode) :
    loopDepth (node :: rest) = max node.loopDepth (loopDepth rest) := by
  rw [loopDepth]

theorem loopDepth_append (nodes others : List CallNode) :
    loopDepth (nodes ++ others) = max (loopDepth nodes) (loopDepth others) := by
  induction nodes with
  | nil => simp
  | cons node nodes ih => rw [List.cons_append, loopDepth_cons, ih, loopDepth_cons, Nat.max_assoc]

end Performing

/-- The values that a branch stands for, in index order. -/
def Branch.elements (lengths : String → Nat) (branch : Branch) : List Branch :=
  match branch.sequence? with
  | none => [branch]
  | some sequence => (List.range (lengths sequence)).map fun index =>
      { type := branch.type, place := s!"{sequence}[{index}]" }

/-- A plan inside of so many loops goes no deeper than the given number of loops, if it does anything. -/
def FitsWithin (most : Nat) (nodes : List CallNode) (indices : List Nat) : Prop :=
  nodes ≠ [] → indices.length + loopDepth nodes ≤ most

section Fitting

variable {most : Nat} {nodes others : List CallNode} {indices : List Nat}

theorem FitsWithin.left (fits : FitsWithin most (nodes ++ others) indices) : FitsWithin most nodes indices := by
  intro isSome
  have := fits (by simp [isSome])
  rw [loopDepth_append] at this
  omega

theorem FitsWithin.right (fits : FitsWithin most (nodes ++ others) indices) : FitsWithin most others indices := by
  intro isSome
  have := fits (by simp [isSome])
  rw [loopDepth_append] at this
  omega

theorem FitsWithin.body {place : String} {type : TypeId} {body : List CallNode}
    (fits : FitsWithin most (if body.isEmpty then [] else [.elements place type body]) indices) (index : Nat) :
    FitsWithin most body (index :: indices) := by
  cases body with
  | nil => exact fun isSome => absurd rfl isSome
  | cons node body =>
      intro _
      have := fits (by simp)
      simp only [List.isEmpty_cons, Bool.false_eq_true, if_false, loopDepth_cons, CallNode.loopDepth,
        loopDepth_nil] at this
      rw [loopDepth_cons, List.length_cons]
      omega

theorem FitsWithin.few (fits : FitsWithin most nodes indices) (isSome : nodes ≠ []) : indices.length ≤ most := by
  have := fits isSome
  omega

end Fitting

namespace Resolver

section Paths

variable (hooks : Registry) (kind : OpKind) (resolver : Resolver) (lengths : String → Nat)

/-- What the recursion meets at the end of a path when it goes through each element of a sequence: a
call of the hook there, or a call of the lifted operation for all that follows. -/
inductive MeetsAt : TypeId → (place : String) → (path : List Nat) → CallNode → Prop where
  | hook {id : TypeId} {place : String} {entry : HookEntry}
      (operates : resolver.Operates hooks id kind (.overridden entry)) : MeetsAt id place [] (.hook ⟨place, id, entry⟩)
  | lifted {id : TypeId} {place : String} : MeetsAt id place [] (.lifted place id kind)
  | step {id : TypeId} {place : String} {calls : List HookCall} {branches : List Branch} {turn : Nat}
      {value : Branch} {turns : List Nat} {node : CallNode}
      (level : Level hooks kind resolver id place calls branches)
      (taken : (branches.flatMap (Branch.elements lengths))[turn]? = some value)
      (rest : MeetsAt value.type value.place turns node) : MeetsAt id place (turn :: turns) node

/-- What the recursion meets at the end of a path that starts with the choice of a value. -/
abbrev MeetsBehind : (values : List Branch) → (path : List Nat) → CallNode → Prop :=
  StandsAmong (fun value => MeetsAt hooks kind resolver lengths value.type value.place) fun _ node => node

/-- Calls are those of the hooks that the recursion meets, each at its path and in the order of the
paths.  What is missing lies behind a call of a lifted operation further down. -/
def PerformsOnce (id : TypeId) (place : String) (calls : List CallNode) : Prop :=
  ∃ marked, marked.map Prod.snd = calls ∧
    Lists CallNode.isHook (MeetsAt hooks kind resolver lengths id place) 1 marked

end Paths

section Listing

variable {hooks : Registry} {kind : OpKind} {resolver : Resolver} {lengths : String → Nat} {id : TypeId}
  {place : String}

theorem not_isHook_lifted_node {type : TypeId} : ¬ CallNode.isHook (.lifted place type kind) := by
  rintro ⟨call, isLifted⟩
  cases isLifted

/-- Opening a value meets its hook and what follows it. -/
theorem meets_opened {calls : List HookCall} {branches : List Branch} {least : Nat}
    {marked : List (List Nat × CallNode)} (level : Level hooks kind resolver id place calls branches)
    (lists : Lists CallNode.isHook
      (MeetsBehind hooks kind resolver lengths (branches.flatMap (Branch.elements lengths))) least marked) :
    Lists CallNode.isHook (MeetsAt hooks kind resolver lengths id place) least
      ((calls.map .hook).map (fun node => ([], node)) ++ marked) := by
  refine lists_here ?few ?found ?here ?onwards ?only lists
  case few => simpa using level.length_calls_le
  case found => exact List.forall_mem_map.mpr fun call _ => ⟨call, rfl⟩
  case here =>
    intro node member
    obtain ⟨call, isCall, rfl⟩ := List.mem_map.mp member
    obtain ⟨entry, operates, rfl⟩ := level.mem_calls_iff.mp isCall
    exact .hook operates
  case onwards =>
    intro path node standing
    cases standing with
    | taken taken standing => exact ⟨List.cons_ne_nil _ _, .step level taken standing⟩
  case only =>
    intro path node isHook meets
    cases meets with
    | hook operates => exact .inl ⟨rfl, List.mem_map_of_mem (level.mem_calls_iff.mpr ⟨_, operates, rfl⟩)⟩
    | lifted => exact absurd isHook not_isHook_lifted_node
    | step otherwise taken rest =>
        obtain ⟨rfl, rfl⟩ := level.unique otherwise
        exact .inr (.taken taken rest)

end Listing

section Performing

variable {hooks : Registry} {kind : OpKind} {resolver : Resolver} {lengths : String → Nat}
  {read : List Nat → String → String} {most : Nat} {root : String}

/-- The place that a way leads to inside of loops with the given indices. -/
def standsFor (root : String) (way : List PlaceStep) (indices : List Nat) : String :=
  placeOf root (fillSteps (fun behind => indices[behind]?) way)

/-- What a body does for one value. -/
def PerformsFrom (hooks : Registry) (kind : OpKind) (resolver : Resolver) (lengths : String → Nat)
    (read : List Nat → String → String) (most : Nat) (root : String) (type : TypeId) (way : List PlaceStep)
    (body : List CallNode) : Prop :=
  ∀ indices, way.count .each = indices.length → FitsWithin most body indices →
    ∃ own, own.map Prod.snd = performed read lengths body indices ∧
      Lists CallNode.isHook (MeetsAt hooks kind resolver lengths type (standsFor root way indices)) 0 own

/-- A body that is wrapped in a loop does for each element what it does for one value. -/
theorem performs_wrap (reads : ReadsLoops read most) (plain : IsPlain root) {way : List PlaceStep}
    (legible : ∀ step ∈ way, step.IsLegible) {type : TypeId} {step : PlaceStep} {body others : List CallNode}
    {indices : List Nat} (counted : way.count .each = indices.length)
    (fits : FitsWithin most ((step.branch type (placeOf root way)).wrap body) indices)
    (own : PerformsFrom hooks kind resolver lengths read most root type (step :: way) body) {rest : List Branch}
    (behind : ∃ later, later.map Prod.snd = others ∧
      Lists CallNode.isHook (MeetsBehind hooks kind resolver lengths rest) 1 later) :
    ∃ marked, marked.map Prod.snd =
        performed read lengths ((step.branch type (placeOf root way)).wrap body) indices ++ others ∧
      Lists CallNode.isHook (MeetsBehind hooks kind resolver lengths
        ((step.branch type (standsFor root way indices)).elements lengths ++ rest)) 1 marked := by
  by_cases isEach : step = .each
  · subst isEach
    have wrapped : (PlaceStep.each.branch type (placeOf root way)).wrap body =
        if body.isEmpty then [] else [.elements (placeOf root way) type body] := rfl
    have isPlace (isSome : body ≠ []) : read indices (placeOf root way) = standsFor root way indices :=
      reads root way indices plain legible counted (fits.few (by simp [wrapped, isSome]))
    rw [wrapped] at fits ⊢
    rw [performed_loop isPlace]
    refine lists_values (fun index _ => ?_) behind
    have counts : (PlaceStep.each :: way).count .each = (index :: indices).length := by
      rw [List.count_cons_self, counted, List.length_cons]
    exact own (index :: indices) counts (fits.body index)
  · have alone (place : String) : step.branch type place = { type := type, place := step.apply place } := by
      rw [PlaceStep.branch, if_neg isEach]
    have counts : (step :: way).count .each = indices.length := by rw [List.count_cons_of_ne isEach, counted]
    have first := own indices counts (by rwa [alone] at fits)
    rw [standsFor, fillSteps_other isEach] at first
    rw [alone, alone]
    exact lists_value first behind

/-- The hook of a value is called before what is done behind it. -/
theorem performs_opened {id : TypeId} {way : List PlaceStep} {indices : List Nat} {hook? : Option HookEntry}
    {turns : List (TypeId × PlaceStep)} {nodes : List CallNode} (isLevel : Level.Turns hooks kind resolver id hook? turns)
    (isPlace : hook?.isSome = true → read indices (placeOf root way) = standsFor root way indices)
    (below : ∃ marked, marked.map Prod.snd = performed read lengths nodes indices ∧
      Lists CallNode.isHook (MeetsBehind hooks kind resolver lengths
        ((turns.map fun turn => turn.2.branch turn.1 (standsFor root way indices)).flatMap
          (Branch.elements lengths))) 1 marked) :
    ∃ own, own.map Prod.snd = performed read lengths
        ((hook?.toList.map fun entry => ⟨placeOf root way, id, entry⟩).map .hook ++ nodes) indices ∧
      Lists CallNode.isHook (MeetsAt hooks kind resolver lengths id (standsFor root way indices)) 1 own := by
  obtain ⟨marked, isMarked, lists⟩ := below
  refine ⟨_, ?_, meets_opened (isLevel.level _) lists⟩
  rw [performed_append, performed_hooks, List.map_append, isMarked]
  cases hook? with
  | none => simp
  | some entry => simp [isPlace rfl]

/-- A level of a plan, carried out, does what it does for each of its values. -/
theorem Plans.performs {active : List TypeId} {branches : List Branch} {nodes : List CallNode}
    (reads : ReadsLoops read most) (plain : IsPlain root) (ready : resolver.Ready hooks)
    (legible : resolver.table.Legible) (plans : Plans hooks kind resolver active branches nodes)
    {way : List PlaceStep} {indices : List Nat} {turns : List (TypeId × PlaceStep)}
    (places : branches = turns.map fun turn => turn.2.branch turn.1 (placeOf root way))
    (legibleWay : ∀ step ∈ way, step.IsLegible) (legibleTurns : ∀ turn ∈ turns, turn.2.IsLegible)
    (counted : way.count .each = indices.length) (fits : FitsWithin most nodes indices) :
    ∃ marked, marked.map Prod.snd = performed read lengths nodes indices ∧
      Lists CallNode.isHook (MeetsBehind hooks kind resolver lengths
        ((turns.map fun turn => turn.2.branch turn.1 (standsFor root way indices)).flatMap
          (Branch.elements lengths))) 1 marked := by
  induction plans generalizing way indices turns with
  | done =>
      obtain rfl := List.map_eq_nil_iff.mp places.symm
      exact ⟨[], by simp, lists_nil 1⟩
  | @again active branch rest nodes kept recurs isOpen others ih =>
      obtain ⟨turn, turns, rfl, rfl, rfl⟩ := List.map_eq_cons_iff.mp places.symm
      obtain ⟨first, behind⟩ := List.forall_mem_cons.mp legibleTurns
      rw [performed_append, List.map_cons, List.flatMap_cons]
      refine performs_wrap reads plain legibleWay counted fits.left ?_ (ih rfl legibleWay behind counted fits.right)
      intro inside counts fitting
      have isPlace : read inside (placeOf root (turn.2 :: way)) = standsFor root (turn.2 :: way) inside :=
        reads _ _ _ plain (List.forall_mem_cons.mpr ⟨first, legibleWay⟩) counts (fitting.few (by simp))
      exact ⟨_, by rw [performed_lifted, ← isPlace]; rfl, lists_cut .lifted not_isHook_lifted_node⟩
  | @opened active branch rest inner hookCalls innerNodes nodes kept level new insides others insideIh ih =>
      obtain ⟨turn, turns, rfl, rfl, rfl⟩ := List.map_eq_cons_iff.mp places.symm
      obtain ⟨first, behind⟩ := List.forall_mem_cons.mp legibleTurns
      rw [performed_append, List.map_cons, List.flatMap_cons]
      refine performs_wrap reads plain legibleWay counted fits.left ?_ (ih rfl legibleWay behind counted fits.right)
      intro inside counts fitting
      have further : ∀ step ∈ turn.2 :: way, step.IsLegible := List.forall_mem_cons.mpr ⟨first, legibleWay⟩
      obtain ⟨hook?, parts, isLevel, rfl, rfl⟩ := level.turns ready legible
      have below := insideIh rfl further isLevel.legible counts fitting.right
      have isPlace (isSome : hook?.isSome = true) :
          read inside (placeOf root (turn.2 :: way)) = standsFor root (turn.2 :: way) inside := by
        obtain ⟨entry, rfl⟩ := Option.isSome_iff_exists.mp isSome
        exact reads _ _ _ plain further counts (fitting.few (by simp))
      obtain ⟨own, isOwn, lists⟩ := performs_opened isLevel isPlace below
      exact ⟨own, isOwn, lists.mono (Nat.zero_le 1)⟩

/-- Carried out, a plan calls each hook once that the recursion meets. -/
theorem Plans.performsOnce {id : TypeId} {nodes : List CallNode} (reads : ReadsLoops read most) (plain : IsPlain root)
    (ready : resolver.Ready hooks) (legible : resolver.table.Legible)
    (plans : Plans hooks kind resolver [] [{ type := id, place := root }] nodes) (deep : loopDepth nodes ≤ most) :
    PerformsOnce hooks kind resolver lengths id root (performed read lengths nodes []) := by
  generalize single : ({ type := id, place := root } : Branch) = branch at plans
  cases plans with
  | again kept recurs isOpen => cases isOpen
  | opened kept level new insides others =>
      cases others
      subst single
      rw [List.append_nil] at deep ⊢
      have fits : FitsWithin most _ [] := fun _ => (Nat.zero_add _).trans_le deep
      obtain ⟨hook?, turns, isLevel, rfl, rfl⟩ := level.turns ready legible
      have noSteps : ∀ step ∈ ([] : List PlaceStep), step.IsLegible := by simp
      have atRoot : read [] (placeOf root []) = standsFor root [] [] := reads _ _ _ plain noSteps rfl (Nat.zero_le _)
      exact performs_opened isLevel (fun _ => atRoot)
        (insides.performs reads plain ready legible rfl noSteps isLevel.legible rfl fits.right)

end Performing

section Settling

variable {hooks : Registry} {resolver : Resolver} {trees : Set TypeTree} {id : TypeId} {place : String}

open Attempt ResolveM

/-- The plan for an operation calls each hook once, with each index read as that of its own loop, and with
all of them read by name if no loop is inside of another one. -/
theorem expand_performs (frozen : hooks.frozen = true) (finite : trees.Finite)
    (prepared : resolver.Prepared hooks trees [id]) (legible : resolver.table.Legible) (plain : IsPlain place)
    (kind : OpKind) :
    Settles (fun plan final => ∀ lengths,
        PerformsOnce hooks kind final lengths id place (performed readByLoop lengths plan []) ∧
        (loopDepth plan ≤ 1 → PerformsOnce hooks kind final lengths id place (performed readByName lengths plan [])))
      (fun fuel => expand hooks fuel id kind place) resolver := by
  apply (expandWithin_settles frozen finite prepared List.nodup_nil place).mono
  intro plan final fuel run _ lengths
  have plans := expandWithin_plans run (.refl final)
  have later := (expandWithin_leads (prepared_leadsQueries hooks trees [id]) kind fuel [] id place).of_ok run prepared
  have stillLegible : final.table.Legible :=
    (expandWithin_leads (legible_leadsQueries hooks) kind fuel [] id place).of_ok run legible
  exact ⟨plans.performsOnce (readByLoop_reads _) plain later.ready stillLegible le_rfl,
    plans.performsOnce readByName_reads plain later.ready stillLegible⟩

end Settling
end Resolver
end LifecycleHooks

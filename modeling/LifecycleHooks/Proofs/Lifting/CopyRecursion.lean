import LifecycleHooks.Proofs.Lifting.PlannedCalls

/-!
# The recursion of a copy plan

A copy plan goes on to every constituent that a deep copy follows, whether or not a hook
is reached behind it.  It ends at hooks and at types without finite structure.  Where it
comes back to an open type it breaks off, and it says so if storage that can be shared is
reached from the type.  Such storage is reached wherever a deep copy runs a hook, because
these hooks belong to references and pointers.
-/

namespace LifecycleHooks
namespace Resolver

open Attempt ResolveM

section Storage

variable {hooks : Registry} {resolver final later : Resolver} {id : TypeId}

/-- A type that is no storage that can be shared, all of whose constituents lie in a
region. -/
inductive Bare (resolver : Resolver) (region : TypeId → Prop) (id : TypeId) : Prop where
  | held (held : resolver.Held id) : Bare resolver region id
  | clear {type : TypeDef} {slots : List Slot} (clear : resolver.Clear id)
      (isType : resolver.table.get? id = some type) (alone : type.isSharedStorage = false)
      (parts : TableM.constituents id resolver.table = .ok slots resolver.table)
      (inside : ∀ slot ∈ slots, region slot.type) : Bare resolver region id

/-- A type in a region that no path leaves and that holds no storage that can be shared. -/
def Storeless (resolver : Resolver) (id : TypeId) : Prop :=
  ∃ region : TypeId → Prop, region id ∧ ∀ other, region other → Bare resolver region other

theorem Bare.extends_ {region : TypeId → Prop} (idle : resolver.Idle) (extends_ : resolver.Extends later)
    (bare : Bare resolver region id) : Bare later region id := by
  cases bare with
  | held held => exact .held (held.extends_ idle extends_)
  | clear clear isType alone parts inside =>
      exact .clear (clear.extends_ idle extends_) (extends_.table.get? isType) alone
        (TableM.constituents_kept parts extends_.table) inside

theorem Storeless.extends_ (idle : resolver.Idle) (extends_ : resolver.Extends later)
    (storeless : resolver.Storeless id) : later.Storeless id := by
  obtain ⟨region, member, bare⟩ := storeless
  exact ⟨region, member, fun other inside => (bare other inside).extends_ idle extends_⟩

/-- A type that the search for shared storage went past, and the types it went on to. -/
inductive PassedBy (resolver : Resolver) (id : TypeId) : List TypeId → Prop where
  | held (held : resolver.Held id) : PassedBy resolver id []
  | clear {type : TypeDef} {slots : List Slot} (clear : resolver.Clear id)
      (isType : resolver.table.get? id = some type) (alone : type.isSharedStorage = false)
      (parts : TableM.constituents id resolver.table = .ok slots resolver.table) :
      PassedBy resolver id (typesBackwards slots)

theorem visitForStorage_tells {fuel : Nat} {next : List TypeId} (idle : resolver.Idle)
    (run : visitForStorage fuel id resolver = .ok (some next) final) (extends_ : final.Extends later) :
    PassedBy later id next := by
  unfold visitForStorage at run
  obtain ⟨unresolvable, settled, asking, run⟩ := bind_eq_ok.mp run
  have verdict := settled_of_run idle asking
  have settles : resolver.Extends settled := ((isUnresolvable_consults fuel id).of_ok asking).toExtends
  have settledIdle := idle.extends_ settles
  cases unresolvable with
  | true =>
      obtain ⟨same, rfl⟩ := EStateM.Result.ok.inj run
      obtain rfl := Option.some.inj same
      exact .held (verdict.extends_ settledIdle extends_)
  | false =>
      obtain ⟨type, middle, fetched, run⟩ := bind_eq_ok.mp run
      obtain ⟨isType, unchanged⟩ := fetch_eq_ok.mp fetched
      cases alone : type.isSharedStorage with
      | true =>
          rw [alone] at run
          cases run
      | false =>
          rw [alone, unchanged] at run
          obtain ⟨slots, last, asked, run⟩ := bind_eq_ok.mp run
          obtain ⟨same, rfl⟩ := EStateM.Result.ok.inj run
          obtain rfl := Option.some.inj same
          obtain ⟨table, worked, rfl⟩ := onTable_eq_ok.mp asked
          have works := (consults_leadsVerdicts.constituents id).of_ok asked
          have onwards := works.toExtends.trans extends_
          exact .clear (verdict.extends_ settledIdle onwards)
            (onwards.table.get? (TypeTable.get_eq_ok.mp isType)) alone
            (TableM.constituents_kept worked extends_.table)

/-- A search that comes to its end has seen a region without storage that can be
shared. -/
theorem storeless_of_run {fuel : Nat} (idle : resolver.Idle)
    (run : ownsStorage fuel id resolver = .ok false final) : final.Storeless id := by
  unfold ownsStorage at run
  rw [searchStorage_eq_search] at run
  obtain ⟨region, covers, closed⟩ := search_exhausted
    (roams_of_preserves (visitForStorage_leads consults_leadsVerdicts)
      fun _ _ idle consults => idle.extends_ consults.toExtends)
    (fun less id next resolver middle later _ idle _ run consults =>
      visitForStorage_tells idle run consults.toExtends)
    idle (fun _ _ => trivial) run
  refine ⟨(· ∈ region), (covers id (by simp)).resolve_left (by simp), fun other inside => ?_⟩
  obtain ⟨next, passed, leads⟩ := closed other inside
  cases passed with
  | held held => exact .held held
  | clear clear isType alone parts =>
      refine .clear clear isType alone parts fun slot isSlot => ?_
      exact (leads slot.type (mem_typesBackwards.mpr ⟨slot, isSlot, rfl⟩)).resolve_left (by simp)

/-- The constituents that a deep copy follows are constituents. -/
theorem constituents_of_relevantSlots {kind : OpKind} {slots relevant : List Slot}
    (parts : TableM.constituents id resolver.table = .ok slots resolver.table)
    (run : relevantSlots id kind resolver = .ok relevant final) : relevant ⊆ slots := by
  unfold relevantSlots at run
  obtain ⟨type, middle, fetched, run⟩ := bind_eq_ok.mp run
  obtain ⟨isType, unchanged⟩ := fetch_eq_ok.mp fetched
  rw [unchanged] at run
  split at run
  · obtain ⟨table, asked, rfl⟩ := onTable_eq_ok.mp run
    obtain ⟨rfl, _⟩ := EStateM.Result.ok.inj (parts.symm.trans asked)
    exact List.Subset.refl _
  · obtain ⟨rfl, rfl⟩ := EStateM.Result.ok.inj run
    exact List.nil_subset _

/-- A hook for a deep copy lies behind storage that can be shared. -/
theorem Storeless.no_path (storeless : resolver.Storeless id) :
    ¬ HookPath hooks .deepCopy resolver resolver.Clear id := by
  obtain ⟨region, member, bare⟩ := storeless
  intro path
  induction path with
  | overridden isClear hook =>
      cases bare _ member with
      | held held => exact held.not_resolvable isClear.resolvable
      | clear clear isType alone =>
          cases hook with
          | value isValue => exact isValue rfl
          | @copied wrapper inner _ isWrap indirect =>
              obtain rfl := Option.some.inj (isType.symm.trans isWrap)
              cases wrapper with
              | ref => cases alone
              | ptr => cases alone
              | _ => cases indirect
  | constituent isClear parts isSlot _ ih =>
      cases bare _ member with
      | held held => exact held.not_resolvable isClear.resolvable
      | clear clear isType alone all inside =>
          exact ih (inside _ (constituents_of_relevantSlots all parts isSlot))

end Storage

/-- The copy plans for values inside the plans of the active types.  The plan for a type
that is neither hooked nor open holds the plans for the constituents that a deep copy
follows, inside of a fresh copy of the storage if the type is such. -/
inductive Copied (resolver : Resolver) :
    (active : List TypeId) → List Branch → List CopyNode → Prop where
  | done {active : List TypeId} : Copied resolver active [] []
  | held {active : List TypeId} {branch : Branch} {rest : List Branch} {nodes : List CopyNode}
      (held : resolver.Held branch.type) (others : Copied resolver active rest nodes) :
      Copied resolver active (branch :: rest) nodes
  | hooked {active : List TypeId} {branch : Branch} {rest : List Branch} {nodes : List CopyNode}
      {entry : HookEntry} (kept : resolver.operations.lookup (branch.type, .deepCopy) = some (.overridden entry))
      (others : Copied resolver active rest nodes) :
      Copied resolver active (branch :: rest) (.hook ⟨branch.place, branch.type, entry⟩ :: nodes)
  | again {active : List TypeId} {branch : Branch} {rest : List Branch} {nodes : List CopyNode}
      {outcome : Outcome} {owns : Bool}
      (kept : resolver.operations.lookup (branch.type, .deepCopy) = some outcome)
      (unbound : ∀ entry, outcome ≠ .overridden entry) (isOpen : branch.type ∈ active)
      (bare : owns = false → resolver.Storeless branch.type)
      (others : Copied resolver active rest nodes) :
      Copied resolver active (branch :: rest)
        ((if owns then [.recursive branch.place branch.type] else []) ++ nodes)
  | opened {active : List TypeId} {branch : Branch} {rest : List Branch} {nodes inner : List CopyNode}
      {outcome : Outcome} {type : TypeDef} {slots : List Slot}
      (kept : resolver.operations.lookup (branch.type, .deepCopy) = some outcome)
      (unbound : ∀ entry, outcome ≠ .overridden entry) (clear : resolver.Clear branch.type)
      (new : branch.type ∉ active)
      (isType : resolver.table.get? branch.type = some type)
      (parts : relevantSlots branch.type .deepCopy resolver = .ok slots resolver)
      (insides : Copied resolver (branch.type :: active)
        (slots.flatMap (Slot.branches resolver.table branch.place)) inner)
      (others : Copied resolver active rest nodes) :
      Copied resolver active (branch :: rest)
        ((if type.isSharedStorage then [.clone branch.place branch.type inner] else inner) ++ nodes)

section Copying

variable {hooks : Registry} {resolver final later : Resolver} {id : TypeId} {place : String} {active : List TypeId}

theorem Copied.append {branches others : List Branch} {nodes otherNodes : List CopyNode}
    (copied : Copied resolver active branches nodes) (behind : Copied resolver active others otherNodes) :
    Copied resolver active (branches ++ others) (nodes ++ otherNodes) := by
  induction copied with
  | done => exact behind
  | held held _ ih => exact .held held (ih behind)
  | hooked kept _ ih => exact .hooked kept (ih behind)
  | again kept unbound isOpen bare _ ih =>
      rw [List.append_assoc]
      exact .again kept unbound isOpen bare (ih behind)
  | opened kept unbound clear new isType parts insides _ _ ih =>
      rw [List.append_assoc]
      exact .opened kept unbound clear new isType parts insides (ih behind)

theorem Copied.flatten {Item : Type} {items : List Item} {branches : Item → List Branch}
    {parts : List (List CopyNode)}
    (copied : List.Forall₂ (fun item part => Copied resolver active (branches item) part) items parts) :
    Copied resolver active (items.flatMap branches) parts.flatten := by
  induction copied with
  | nil => exact .done
  | cons first _ ih =>
      rw [List.flatMap_cons, List.flatten_cons]
      exact first.append ih

/-- It does not matter for a plan that a value stands for each element of a sequence. -/
theorem Copied.element {nodes : List CopyNode} (sequence : String)
    (copied : Copied resolver active [{ type := id, place := place }] nodes) :
    Copied resolver active [{ type := id, place := place, sequence? := some sequence }] nodes := by
  cases copied with
  | held held others => exact .held held others
  | hooked kept others => exact .hooked kept others
  | again kept unbound isOpen bare others => exact .again kept unbound isOpen bare others
  | opened kept unbound clear new isType parts insides others =>
      exact .opened kept unbound clear new isType parts insides others

/-- A plan that is given for any value of a type is one for these values. -/
def Copies (active : List TypeId) (plan : TypeId → String → ResolveM (List CopyNode)) : Prop :=
  ∀ id place (resolver final : Resolver) nodes, resolver.Idle → plan id place resolver = .ok nodes final →
    ∀ later : Resolver, final.Extends later → Copied later active [{ type := id, place := place }] nodes

/-- Only wrapped types have pointees and elements without a count. -/
theorem step_of_constituents {type : TypeDef} {slots : List Slot}
    (isType : resolver.table.get? id = some type) (plain : ∀ wrapper inner, type ≠ .wrap wrapper inner)
    (run : onTable (TableM.constituents id) resolver = .ok slots final) :
    ∀ slot ∈ slots, slot.step ≠ .pointee ∧ slot.step ≠ .element none := by
  obtain ⟨table, asked, rfl⟩ := onTable_eq_ok.mp run
  have ofBody (body : Body) : ∀ slot ∈ body.slots, slot.step ≠ .pointee ∧ slot.step ≠ .element none := by
    intro slot member
    rcases List.mem_append.mp member with isBase | isField
    · obtain ⟨base, _, rfl⟩ := List.mem_map.mp isBase
      simp
    · obtain ⟨field, _, rfl⟩ := List.mem_map.mp isField
      simp
  unfold TableM.constituents at asked
  rw [bind_run_of_ok (TableM.fetch_run isType)] at asked
  cases type with
  | wrap wrapper inner => exact absurd rfl (plain wrapper inner)
  | object object =>
      obtain ⟨body, _, _, rest⟩ := bind_eq_ok.mp asked
      obtain ⟨rfl, rfl⟩ := EStateM.Result.ok.inj rest
      exact ofBody body
  | applied head args =>
      obtain ⟨body, _, _, rest⟩ := bind_eq_ok.mp asked
      obtain ⟨rfl, rfl⟩ := EStateM.Result.ok.inj rest
      exact ofBody body
  | tuple elements =>
      obtain ⟨rfl, rfl⟩ := EStateM.Result.ok.inj asked
      intro slot member
      obtain ⟨element, _, rfl⟩ := List.mem_map.mp member
      simp
  | _ =>
      obtain ⟨rfl, rfl⟩ := EStateM.Result.ok.inj asked
      simp

theorem copySlot_leads {done failed : Resolver → Resolver → Prop} [IsLead done failed]
    {plan : TypeId → String → ResolveM (List CopyNode)}
    (leads : ∀ part partPlace, (plan part partPlace).Leads done failed) (place : String) (slot : Slot) :
    (copySlot plan place slot).Leads done failed := by
  unfold copySlot
  split
  · exact (leads_mapM fun _ _ => leads _ _).bind fun _ => leads_pure _
  · exact leads_pure _
  · exact (slotPlace_leads slot place).bind fun _ => leads _ _

/-- The plan for one constituent consists of the plans for the values that it leads to. -/
theorem copySlot_copied {plan : TypeId → String → ResolveM (List CopyNode)} {slot : Slot} {nodes : List CopyNode}
    (learns : ∀ part partPlace, (plan part partPlace).Preserves Extends) (copies : Copies active plan)
    (idle : resolver.Idle) (plain : slot.step ≠ .pointee ∧ slot.step ≠ .element none)
    (run : copySlot plan place slot resolver = .ok nodes final) (extends_ : final.Extends later) :
    Copied later active (slot.branches later.table place) nodes := by
  unfold copySlot at run
  by_cases element : ∃ count, slot.step = .element count
  · obtain ⟨count, isStep⟩ := element
    unfold Slot.branches
    rw [isStep] at run ⊢
    cases count with
    | none => exact absurd isStep plain.2
    | some count =>
        obtain ⟨parts, middle, each, rest⟩ := bind_eq_ok.mp run
        obtain ⟨rfl, rfl⟩ := EStateM.Result.ok.inj rest
        let follows (state : Resolver) (index : Nat) (nodes : List CopyNode) : Prop :=
          ∀ later : Resolver, state.Extends later →
            Copied later active [{ type := slot.type, place := s!"{place}[{index}]" }] nodes
        have told : List.Forall₂ (follows middle) (List.range count.toNat) parts :=
          mapM_tells_behind follows (fun index => learns _ _)
            (fun index before after nodes onwards planned =>
              copies _ _ _ _ nodes (idle.extends_ onwards) planned)
            (fun index nodes before after copied onwards later behind => copied later (onwards.trans behind))
            each
        dsimp only
        rw [List.map_eq_flatMap]
        exact .flatten (told.imp fun index nodes copied => copied later extends_)
  · have alone : ∀ count, slot.step ≠ .element count := fun count isStep => element ⟨count, isStep⟩
    have planned : (do plan slot.type (← slotPlace slot place) : ResolveM (List CopyNode)) resolver =
        .ok nodes final := by
      cases isStep : slot.step with
      | element count => exact absurd isStep (alone count)
      | pointee => exact absurd isStep plain.1
      | _ => rwa [isStep] at run
    obtain ⟨part, middle, asked, planned⟩ := bind_eq_ok.mp planned
    have placed : (slotPlace slot place).Preserves Extends := slotPlace_leads slot place
    have before := placed.of_ok asked
    have onwards := before.trans (((learns slot.type part).of_ok planned).trans extends_)
    rw [(branches_of_slotPlace alone asked onwards).2]
    exact copies _ part _ _ nodes (idle.extends_ before) planned later extends_

theorem copyInside_extends {plan : TypeId → String → ResolveM (List CopyNode)}
    (learns : ∀ part partPlace, (plan part partPlace).Preserves Extends) (id : TypeId) (place : String)
    (type : TypeDef) : (copyInside plan id place type).Preserves Extends := by
  have slots := (extends_leadsQueries {}).constituents id
  unfold copyInside
  split
  case h_4 =>
    exact slots.bind fun _ => (leads_mapM fun slot _ => copySlot_leads learns place slot).bind fun _ => leads_pure _
  all_goals exact (learns _ _).bind fun _ => leads_pure _

theorem relevantSlots_run {kind : OpKind} {type : TypeDef} (isType : resolver.table.get? id = some type) :
    relevantSlots id kind resolver =
      (if followsConstituents kind type then onTable (TableM.constituents id) else return []) resolver := by
  unfold relevantSlots
  rw [bind_run_of_ok (fetch_eq_ok.mpr ⟨TypeTable.get_eq_ok.mpr isType, rfl⟩)]

theorem relevantSlots_wrap {wrapper : Wrapper} {inner : TypeId}
    (isType : resolver.table.get? id = some (.wrap wrapper inner)) :
    relevantSlots id .deepCopy resolver =
      .ok (match wrapper with
        | .ref | .ptr => [⟨.pointee, inner⟩]
        | .seq => [⟨.element none, inner⟩]
        | .var | .lent => []) resolver := by
  rw [relevantSlots_run isType]
  cases wrapper with
  | var => rfl
  | lent => rfl
  | _ =>
      refine onTable_eq_ok.mpr ⟨resolver.table, ?_, rfl⟩
      unfold TableM.constituents
      rw [bind_run_of_ok (TableM.fetch_run isType)]
      rfl

theorem copySlots_copied {plan : TypeId → String → ResolveM (List CopyNode)} {slots : List Slot}
    {parts : List (List CopyNode)} (learns : ∀ part partPlace, (plan part partPlace).Preserves Extends)
    (copies : Copies active plan) (idle : resolver.Idle)
    (plain : ∀ slot ∈ slots, slot.step ≠ .pointee ∧ slot.step ≠ .element none)
    (run : slots.mapM (copySlot plan place) resolver = .ok parts final) (extends_ : final.Extends later) :
    Copied later active (slots.flatMap (Slot.branches later.table place)) parts.flatten := by
  let follows (state : Resolver) (slot : Slot) (nodes : List CopyNode) : Prop :=
    (slot.step ≠ .pointee ∧ slot.step ≠ .element none) → ∀ later : Resolver, state.Extends later →
      Copied later active (slot.branches later.table place) nodes
  have told : List.Forall₂ (follows final) slots parts :=
    mapM_tells_behind follows (copySlot_leads learns place)
      (fun slot before after nodes onwards planned plain later behind =>
        copySlot_copied learns copies (idle.extends_ onwards) plain planned behind)
      (fun slot nodes before after copied onwards plain later behind =>
        copied plain later (onwards.trans behind))
      run
  exact .flatten (((List.forall₂_and_left _ _).mpr ⟨plain, told⟩).imp
    fun slot nodes copied => copied.2 copied.1 later extends_)

/-- What is inside a value that is no shared storage is copied constituent by constituent. -/
theorem copyParts_copied {plan : TypeId → String → ResolveM (List CopyNode)} {type : TypeDef}
    {nodes : List CopyNode} (learns : ∀ part partPlace, (plan part partPlace).Preserves Extends)
    (copies : Copies active plan) (idle : resolver.Idle) (isType : resolver.table.get? id = some type)
    (alone : type.isSharedStorage = false)
    (run : (do
      let slots ← onTable (TableM.constituents id)
      let parts ← slots.mapM (copySlot plan place)
      return parts.flatten) resolver = .ok nodes final)
    (extends_ : final.Extends later) :
    ∃ slots, relevantSlots id .deepCopy later = .ok slots later ∧
      Copied later active (slots.flatMap (Slot.branches later.table place)) nodes := by
  obtain ⟨slots, middle, asked, rest⟩ := bind_eq_ok.mp run
  obtain ⟨parts, last, each, rest⟩ := bind_eq_ok.mp rest
  obtain ⟨rfl, rfl⟩ := EStateM.Result.ok.inj rest
  have worked : resolver.Extends middle :=
    ((consults_leadsVerdicts.constituents id).of_ok asked).toExtends
  have followed : middle.Extends last := (leads_mapM fun slot _ => copySlot_leads learns place slot).of_ok each
  have onwards := followed.trans extends_
  have stillType := (worked.trans onwards).table.get? isType
  obtain ⟨table, answered, rfl⟩ := onTable_eq_ok.mp asked
  have kept := TableM.constituents_kept answered onwards.table
  cases follows : followsConstituents .deepCopy type with
  | true =>
      have plain : ∀ wrapper inner, type ≠ .wrap wrapper inner := by
        rintro wrapper inner rfl
        cases wrapper with
        | var => cases follows
        | lent => cases follows
        | _ => cases alone
      refine ⟨slots, ?_, copySlots_copied learns copies (idle.extends_ worked)
        (step_of_constituents isType plain asked) each extends_⟩
      rw [relevantSlots_run stillType, if_pos follows]
      exact onTable_eq_ok.mpr ⟨later.table, kept, rfl⟩
  | false =>
      -- Parameter modes are not followed, and their pointees are not copied.
      have nothing : parts.flatten = [] := by
        unfold TableM.constituents at kept
        rw [bind_run_of_ok (TableM.fetch_run stillType)] at kept
        cases type with
        | wrap wrapper inner =>
            cases wrapper with
            | var =>
                obtain ⟨rfl, _⟩ := EStateM.Result.ok.inj kept
                obtain ⟨rfl, _⟩ := EStateM.Result.ok.inj each
                rfl
            | lent =>
                obtain ⟨rfl, _⟩ := EStateM.Result.ok.inj kept
                obtain ⟨rfl, _⟩ := EStateM.Result.ok.inj each
                rfl
            | _ => cases alone
        | typevar name =>
            obtain ⟨rfl, _⟩ := EStateM.Result.ok.inj kept
            obtain ⟨rfl, _⟩ := EStateM.Result.ok.inj each
            rfl
        | _ => cases follows
      rw [nothing]
      refine ⟨[], ?_, .done⟩
      rw [relevantSlots_run stillType, follows]
      rfl

/-- What is inside a value is copied along the constituents that a deep copy follows. -/
theorem copyInside_copied {plan : TypeId → String → ResolveM (List CopyNode)} {type : TypeDef}
    {nodes : List CopyNode} (learns : ∀ part partPlace, (plan part partPlace).Preserves Extends)
    (copies : Copies active plan) (idle : resolver.Idle) (isType : resolver.table.get? id = some type)
    (run : copyInside plan id place type resolver = .ok nodes final) (extends_ : final.Extends later) :
    ∃ slots inner, relevantSlots id .deepCopy later = .ok slots later ∧
      Copied later active (slots.flatMap (Slot.branches later.table place)) inner ∧
      nodes = if type.isSharedStorage then [.clone place id inner] else inner := by
  have ofParts (alone : type.isSharedStorage = false)
      (run : (do
        let slots ← onTable (TableM.constituents id)
        let parts ← slots.mapM (copySlot plan place)
        return parts.flatten) resolver = .ok nodes final) :
      ∃ slots inner, relevantSlots id .deepCopy later = .ok slots later ∧
        Copied later active (slots.flatMap (Slot.branches later.table place)) inner ∧
        nodes = if type.isSharedStorage then [.clone place id inner] else inner := by
    obtain ⟨slots, relevant, copied⟩ := copyParts_copied learns copies idle isType alone run extends_
    exact ⟨slots, nodes, relevant, copied, by rw [alone]; rfl⟩
  have ofPlan {inner : TypeId} {part : String}
      (run : (do return [CopyNode.clone place id (← plan inner part)]) resolver = .ok nodes final) :
      ∃ children, nodes = [.clone place id children] ∧ resolver.Extends later ∧
        Copied later active [{ type := inner, place := part }] children := by
    obtain ⟨children, middle, planned, rest⟩ := bind_eq_ok.mp run
    obtain ⟨rfl, rfl⟩ := EStateM.Result.ok.inj rest
    exact ⟨children, rfl, ((learns _ _).of_ok planned).trans extends_,
      copies inner part _ _ children idle planned later extends_⟩
  cases type with
  | wrap wrapper inner =>
      cases wrapper with
      | ref =>
          obtain ⟨children, rfl, onwards, copied⟩ := ofPlan run
          exact ⟨_, children, relevantSlots_wrap (onwards.table.get? isType), copied, rfl⟩
      | ptr =>
          obtain ⟨children, rfl, onwards, copied⟩ := ofPlan run
          exact ⟨_, children, relevantSlots_wrap (onwards.table.get? isType), copied, rfl⟩
      | seq =>
          obtain ⟨children, rfl, onwards, copied⟩ := ofPlan run
          exact ⟨_, children, relevantSlots_wrap (onwards.table.get? isType), copied.element place, rfl⟩
      | _ => exact ofParts rfl run
  | _ => exact ofParts rfl run

/-- Whatever copy plan is given follows the recursion. -/
theorem copyWithin_copied {fuel : Nat} {nodes : List CopyNode} (idle : resolver.Idle)
    (run : copyWithin hooks fuel active id place resolver = .ok nodes final) (extends_ : final.Extends later) :
    Copied later active [{ type := id, place := place }] nodes := by
  induction fuel generalizing active id place resolver final later nodes with
  | zero => cases run
  | succ fuel ih =>
      rw [copyWithin_succ] at run
      obtain ⟨unresolvable, settled, asking, run⟩ := bind_eq_ok.mp run
      have verdict := settled_of_run idle asking
      have settles : resolver.Extends settled := ((isUnresolvable_consults fuel id).of_ok asking).toExtends
      have settledIdle := idle.extends_ settles
      cases unresolvable with
      | true =>
          obtain ⟨rfl, rfl⟩ := EStateM.Result.ok.inj run
          exact .held (verdict.extends_ settledIdle extends_) .done
      | false =>
          obtain ⟨operation, middle, resolved, run⟩ := bind_eq_ok.mp run
          have middleIdle : middle.Idle := settledIdle.extends_ ((resolve_extends hooks fuel id .deepCopy).of_ok resolved)
          have kept (onwards : middle.Extends later) := (operates_of_run resolved onwards).1
          have clear (onwards : middle.Extends later) :=
            verdict.extends_ settledIdle (((resolve_extends hooks fuel id .deepCopy).of_ok resolved).trans onwards)
          have unhooked (unbound : ∀ entry, operation.outcome ≠ .overridden entry)
              (run : (do
                let type ← fetch id
                if id ∈ active then
                  if type.isSharedStorage || (← ownsStorage fuel id) then
                    return [CopyNode.recursive place id]
                  else
                    return []
                else
                  copyInside (copyWithin hooks fuel (id :: active)) id place type) middle = .ok nodes final) :
              Copied later active [{ type := id, place := place }] nodes := by
            obtain ⟨type, _, fetched, run⟩ := bind_eq_ok.mp run
            obtain ⟨isType, unchanged⟩ := fetch_eq_ok.mp fetched
            rw [unchanged] at run
            by_cases isOpen : id ∈ active
            · simp only [if_pos isOpen] at run
              obtain ⟨owns, last, searched, run⟩ := bind_eq_ok.mp run
              have passed : middle.Extends last := (ownsStorage_leads (extends_leadsQueries hooks) fuel id).of_ok searched
              have again (told : final = last) (bare : (type.isSharedStorage || owns) = false → last.Storeless id) :
                  Copied later active [{ type := id, place := place }]
                    ((if type.isSharedStorage || owns then [.recursive place id] else []) ++ []) := by
                rw [told] at extends_
                exact .again (kept (passed.trans extends_)) unbound isOpen
                  (fun none => (bare none).extends_ (middleIdle.extends_ passed) extends_) .done
              cases told : type.isSharedStorage || owns with
              | true =>
                  rw [told] at run again
                  obtain ⟨rfl, rfl⟩ := EStateM.Result.ok.inj run
                  exact again rfl (by simp)
              | false =>
                  rw [told] at run again
                  obtain ⟨rfl, rfl⟩ := EStateM.Result.ok.inj run
                  obtain ⟨_, rfl⟩ := Bool.or_eq_false_iff.mp told
                  exact again rfl fun _ => storeless_of_run middleIdle searched
            · simp only [if_neg isOpen] at run
              have learns (part : TypeId) (partPlace : String) :=
                copyWithin_leads (extends_leadsQueries hooks) fuel (id :: active) part partPlace
              have copies : Copies (id :: active) (copyWithin hooks fuel (id :: active)) :=
                fun part partPlace before after nodes idle planned later behind => ih idle planned behind
              have atType := TypeTable.get_eq_ok.mp isType
              obtain ⟨slots, inner, parts, insides, rfl⟩ := copyInside_copied learns copies middleIdle atType run extends_
              have onwards := ((copyInside_extends learns id place type).of_ok run).trans extends_
              have opened : Copied later active [{ type := id, place := place }]
                  ((if type.isSharedStorage then [.clone place id inner] else inner) ++ []) :=
                .opened (kept onwards) unbound (clear onwards) isOpen (onwards.table.get? atType) parts insides .done
              rwa [List.append_nil] at opened
          cases isOutcome : operation.outcome with
          | overridden entry =>
              rw [isOutcome] at run kept
              obtain ⟨rfl, rfl⟩ := EStateM.Result.ok.inj run
              exact .hooked (kept extends_) .done
          | _ => exact unhooked (by simp [isOutcome]) (by rwa [isOutcome] at run)

end Copying

end Resolver
end LifecycleHooks

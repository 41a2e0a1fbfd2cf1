import LifecycleHooks.Proofs.Types.Adding
import LifecycleHooks.Proofs.Types.Saturation
import LifecycleHooks.Proofs.Types.Variables

/-!
# The type variables in scope

What stands behind the name of a type is spelled with the type parameters of that type in scope
and no others.  An instance has arguments for all of them, so its constituents mention what the
instance mentions; a type without type variables leads to such types only, however far its
constituents are followed.
-/

namespace LifecycleHooks

open Attempt

namespace TypeDef

/-- The types that stand behind the name of a type. -/
def behind : TypeDef → List TypeId
  | .object declared => declared.body.slots.map Slot.type
  | .distinct _ underlying _ => [underlying]
  | _ => []

theorem behind_of_isStructural {type : TypeDef} (structural : type.isStructural = true) : type.behind = [] := by
  cases type <;> first | rfl | cases structural

end TypeDef

namespace TypeTable

variable {table larger : TypeTable} {id part : TypeId} {type : TypeDef} {vars wider : Set TypeId}

/-- An existing type that mentions no type variables. -/
def IsGround (table : TypeTable) (id : TypeId) : Prop := table.Has id ∧ (table.tree id).IsClosed

theorem WellFormed.isGround_extends (wellFormed : table.WellFormed) (extends_ : table.Extends larger)
    (ground : table.IsGround id) : larger.IsGround id := by
  refine ⟨ground.1.extends_ extends_, ?_⟩
  rw [wellFormed.tree_extends extends_ ground.1]
  exact ground.2

/-- The name of an object mentions no type variables, not even its type parameters. -/
theorem WellFormed.isGround_object (wellFormed : table.WellFormed) (isObject : table.IsObject id) : table.IsGround id := by
  obtain ⟨object, found⟩ := isObject
  refine ⟨has_of_get? found, fun other mentions => ?_⟩
  obtain ⟨operand, member, -⟩ := (wellFormed.mentions_operands found (by simp [TypeDef.kind])).mp mentions
  cases member

/-- A saturated type that mentions type variables of a set only. -/
structure InScope (table : TypeTable) (vars : Set TypeId) (id : TypeId) : Prop where
  saturated : table.IsSaturated id
  mentioned : ∀ var, (table.tree id).Mentions var → var ∈ vars

/-- A proper table of types with saturated operands, where no name hides a type variable but the
type parameters of its own declaration. -/
structure WellScoped (table : TypeTable) : Prop extends Proper table where
  composed : table.Composed
  constants : ∀ id ∈ table.builtIns, table.InScope ∅ id
  behind : ∀ id type, table.get? id = some type →
    ∀ part ∈ type.behind, table.InScope {var | var ∈ type.typeParams} part

/-- No name with something behind it is declared. -/
def DeclaresNone (table larger : TypeTable) : Prop := AddsNone (fun type => type.behind ≠ []) table larger

instance : IsPreorder TypeTable DeclaresNone :=
  inferInstanceAs (IsPreorder TypeTable (AddsNone _))

theorem InScope.mono (inScope : table.InScope vars id) (subset : vars ⊆ wider) : table.InScope wider id :=
  ⟨inScope.saturated, fun var mentions => subset (inScope.mentioned var mentions)⟩

theorem WellFormed.inScope_extends (wellFormed : table.WellFormed) (extends_ : table.Extends larger)
    (inScope : table.InScope vars id) : larger.InScope vars id := by
  refine ⟨inScope.saturated.extends_ extends_, ?_⟩
  rw [wellFormed.tree_extends extends_ inScope.saturated.has]
  exact inScope.mentioned

theorem IsSaturated.inScope (saturated : table.IsSaturated id) : table.InScope Set.univ id :=
  ⟨saturated, fun _ _ => trivial⟩

/-- What mentions no type variables is in every scope. -/
theorem IsGround.inScope (ground : table.IsGround id) (saturated : table.IsSaturated id) : table.InScope vars id :=
  ⟨saturated, fun var mentions => absurd mentions (ground.2 var)⟩

theorem InScope.isGround (inScope : table.InScope ∅ id) : table.IsGround id :=
  ⟨inScope.saturated.has, fun var mentions => inScope.mentioned var mentions⟩

/-- A type is in scope when its operands are, unless it is a type variable. -/
theorem WellFormed.inScope (wellFormed : table.WellFormed) (found : table.get? id = some type)
    (constant : type.kind ≠ .typevar) (noParams : type.typeParams = [])
    (operands : ∀ operand ∈ type.operands, table.InScope vars operand) : table.InScope vars id := by
  refine ⟨⟨type, found, noParams⟩, fun var mentions => ?_⟩
  obtain ⟨operand, member, mentions⟩ := (wellFormed.mentions_operands found constant).mp mentions
  exact (operands operand member).mentioned var mentions

theorem WellScoped.holdsSaturated (wellScoped : table.WellScoped) : table.HoldsSaturated := fun id _ found slot member =>
  (wellScoped.behind id _ found slot.type (List.mem_map_of_mem member)).saturated

section Constituents

/-- A type with the outermost constructor of a saturated type is saturated. -/
theorem isSaturated_of_label {other : TypeId} {second : TypeDef} (found : table.get? id = some type)
    (known : table.get? other = some second) (noParams : second.typeParams = [])
    (same : second.label other = type.label id) : table.IsSaturated id := by
  cases type with
  | object object =>
      obtain rfl := TypeDef.eq_id_of_label rfl same
      exact ⟨second, known, noParams⟩
  | _ => exact ⟨_, found, rfl⟩

/-- With as many arguments as parameters, each parameter stands for an argument. -/
theorem exists_lookup_zip {params args : List TypeId} {param : TypeId} (sameLength : args.length = params.length)
    (member : param ∈ params) : ∃ arg ∈ args, (params.zip args).lookup param = some arg := by
  cases assigned : (params.zip args).lookup param with
  | some arg => exact ⟨arg, (List.of_mem_zip (mem_of_lookup assigned)).2, rfl⟩
  | none =>
      have keys : (params.zip args).map Prod.fst = params := List.map_fst_zip sameLength.ge
      rw [← keys] at member
      obtain ⟨entry, isEntry, rfl⟩ := List.mem_map.mp member
      exact absurd (List.lookup_eq_none_iff.mp assigned entry isEntry) (by simp)

/-- A constituent of an instance mentions what the instance mentions. -/
theorem WellScoped.inScope_replaced (wellScoped : table.WellScoped) {head slot : TypeId} {args : List TypeId} {object : ObjectType}
    (found : table.get? id = some (.applied head args)) (inScope : table.InScope vars id)
    (isHead : table.get? head = some (.object object)) (isBehind : slot ∈ (TypeDef.object object).behind)
    (has : table.Has part)
    (replaced : table.tree part = (table.tree slot).substitute (table.mappedTrees (object.params.zip args))) :
    table.InScope vars part := by
  have wellFormed := wellScoped.toWellFormed
  obtain ⟨declared, isDeclared, -, sameLength⟩ := wellFormed.applied id head args found
  obtain rfl := TypeDef.object.inj (Option.some.inj (isDeclared.symm.trans isHead))
  have slotInScope := wellScoped.behind head _ isHead slot isBehind
  have assigned {var : TypeId} (mentions : (table.tree slot).Mentions var) :
      ∃ arg ∈ args, table.mappedTrees (declared.params.zip args) var = some (table.tree arg) := by
    obtain ⟨arg, isArg, looked⟩ := exists_lookup_zip sameLength (slotInScope.mentioned var mentions)
    exact ⟨arg, isArg, by simp [mappedTrees, looked]⟩
  have operand {arg : TypeId} (isArg : arg ∈ args) : arg ∈ (TypeDef.applied head args).operands := isArg
  constructor
  case saturated =>
    obtain ⟨slotType, slotFound, noParams⟩ := slotInScope.saturated
    obtain ⟨type, isType⟩ := has.exists
    by_cases isVariable : slotType.kind = .typevar
    · -- The part is what the type parameter stands for.
      obtain ⟨name, rfl⟩ := exists_typevar isVariable
      obtain ⟨arg, isArg, stands⟩ := assigned ((wellFormed.mentions_typevar slotFound).mpr rfl)
      have same : table.tree part = table.tree arg := by
        rw [replaced, wellFormed.tree_eq slotFound]
        simp [TypeDef.label, TypeTree.substitute, stands]
      have saturated := wellScoped.composed id _ found arg (operand isArg)
      exact wellFormed.tree_injective has saturated.has same ▸ saturated
    · have same : type.label part = slotType.label slot := by
        rw [wellFormed.tree_eq slotFound, TypeTree.substitute_node (label_constant isVariable slot),
          wellFormed.tree_eq isType] at replaced
        exact (TypeTree.node.inj replaced).1
      exact isSaturated_of_label isType slotFound noParams same.symm
  case mentioned =>
    intro var mentions
    rw [replaced, TypeTree.mentions_substitute_iff] at mentions
    obtain ⟨other, mentioned, stays⟩ := mentions
    obtain ⟨arg, isArg, stands⟩ := assigned mentioned
    rw [stands] at stays
    exact inScope.mentioned var
      ((wellFormed.mentions_operands found (by simp [TypeDef.kind])).mpr ⟨arg, operand isArg, stays⟩)

/-- What stands behind the name of a type in scope is in scope: without type parameters it mentions no
type variables. -/
theorem WellScoped.inScope_behind (wellScoped : table.WellScoped) (found : table.get? id = some type)
    (noParams : type.typeParams = []) (isBehind : part ∈ type.behind) : table.InScope vars part :=
  (wellScoped.behind id type found part isBehind).mono (by simp [noParams])

theorem WellScoped.inScope_operand (wellScoped : table.WellScoped) (found : table.get? id = some type)
    (constant : type.kind ≠ .typevar) (inScope : table.InScope vars id) (isOperand : part ∈ type.operands) :
    table.InScope vars part :=
  ⟨wellScoped.composed id type found part isOperand, fun var mentions => inScope.mentioned var
    ((wellScoped.toWellFormed.mentions_operands found constant).mpr ⟨part, isOperand, mentions⟩)⟩

/-- A name contains what stands behind it. -/
theorem constituentTrees_named (found : table.get? id = some type) (named : type.isStructural = false) :
    table.constituentTrees (.node (.named id) []) = type.behind.map table.tree := by
  simp only [constituentTrees, declared?_eq_some.mpr ⟨found, named⟩]
  cases type <;> simp [TypeDef.behind]

/-- The constituents of a type in scope are in scope. -/
theorem WellScoped.inScope_constituent (wellScoped : table.WellScoped) (inScope : table.InScope vars id) (has : table.Has part)
    (isPart : table.tree part ∈ table.constituentTrees (table.tree id)) : table.InScope vars part := by
  have wellFormed := wellScoped.toWellFormed
  obtain ⟨type, found, noParams⟩ := inScope.saturated
  -- Types of the same tree are the same type.
  have ofTrees {others : List TypeId} (inScope : ∀ other ∈ others, table.InScope vars other)
      (member : table.tree part ∈ others.map table.tree) : table.InScope vars part := by
    obtain ⟨other, isOther, same⟩ := List.mem_map.mp member
    exact wellFormed.tree_injective (inScope other isOther).saturated.has has same ▸ inScope other isOther
  have ofBehind (named : type.isStructural = false) (isName : table.tree id = .node (.named id) []) :
      table.InScope vars part := by
    rw [isName, constituentTrees_named found named] at isPart
    exact ofTrees (fun other => wellScoped.inScope_behind found noParams) isPart
  have ofOperands (constant : type.kind ≠ .typevar) (member : table.tree part ∈ type.operands.map table.tree) :
      table.InScope vars part :=
    ofTrees (fun other => wellScoped.inScope_operand found constant inScope) member
  have spelled := wellFormed.tree_eq found
  cases type with
  | applied head args =>
      obtain ⟨object, isHead, -⟩ := wellFormed.applied id head args found
      rw [TableM.constituentTrees_instance wellFormed found isHead] at isPart
      obtain ⟨slot, isSlot, same⟩ := List.mem_map.mp isPart
      exact wellScoped.inScope_replaced found inScope isHead (List.mem_map_of_mem isSlot) has same.symm
  | typevar name =>
      rw [spelled] at isPart
      cases isPart
  | array | tuple | wrap =>
      rw [spelled] at isPart
      exact ofOperands (by simp [TypeDef.kind]) isPart
  | _ => exact ofBehind rfl spelled

end Constituents

section Matching

/-- What type variables stand for is saturated. -/
def AssignsSaturated (table : TypeTable) (mapping : Substitution) : Prop :=
  ∀ pair ∈ mapping, table.IsSaturated pair.2

/-- All parts of a saturated type are saturated, but for the generic object of an instance. -/
theorem WellScoped.saturated_part (wellScoped : table.WellScoped) (found : table.get? id = some type)
    (member : part ∈ type.parts) : table.IsSaturated part ∨ ∃ args, type = .applied part args := by
  have ofOperands (isOperand : part ∈ type.operands) : table.IsSaturated part :=
    wellScoped.composed id type found part isOperand
  cases type with
  | applied head args =>
      rcases List.mem_cons.mp member with rfl | isArg
      · exact .inr ⟨args, rfl⟩
      · exact .inl (ofOperands isArg)
  | distinct name underlying span => exact .inl (wellScoped.behind id _ found part member).saturated
  | _ => exact .inl (ofOperands member)

/-- Where two types correspond, a part is matched with a saturated type, and a generic object with another one. -/
theorem WellScoped.suits_of_zip (wellScoped : table.WellScoped) {param arg : TypeId} {argType : TypeDef}
    {pair : TypeId × TypeId} (isParam : table.get? param = some type) (isArg : table.get? arg = some argType)
    (corresponds : type.corresponds argType = true) (member : pair ∈ type.parts.zip argType.parts) :
    table.IsSaturated pair.2 ∨ table.IsObject pair.1 := by
  rcases wellScoped.saturated_part isArg (List.of_mem_zip member).2 with saturated | ⟨args, rfl⟩
  · exact .inl saturated
  · cases type with
    | applied head others =>
        rcases List.mem_cons.mp member with first | behind
        · obtain ⟨object, isHead, -⟩ := wellScoped.applied param head others isParam
          exact .inr ⟨object, first ▸ isHead⟩
        · exact .inl (wellScoped.composed arg _ isArg pair.2 (List.of_mem_zip behind).2)
    | _ => simp [TypeDef.corresponds, TypeDef.kind] at corresponds

theorem foldlM_saturated {Item : Type} {items : List Item} {found mapping : Substitution}
    {matchItem : Substitution → Item → Except Fault Substitution}
    (each : ∀ item ∈ items, ∀ found mapping, table.AssignsSaturated found → matchItem found item = .ok mapping →
      table.AssignsSaturated mapping)
    (saturated : table.AssignsSaturated found) (run : items.foldlM matchItem found = .ok mapping) :
    table.AssignsSaturated mapping := by
  induction items generalizing found with
  | nil =>
      obtain rfl := Except.ok.inj run
      exact saturated
  | cons item items ih =>
      rw [List.foldlM_cons] at run
      cases first : matchItem found item with
      | error fault =>
          rw [first] at run
          cases run
      | ok middle =>
          rw [first] at run
          exact ih (fun other member => each other (List.mem_cons_of_mem item member))
            (each item List.mem_cons_self found middle saturated first) run

/-- Type variables are bound to saturated types only: where a generic object is matched, it is with
one that is no type variable. -/
theorem WellScoped.matchWithin_saturated (wellScoped : table.WellScoped) {depth : Nat} {param arg : TypeId}
    {found mapping : Substitution} (suits : table.IsSaturated arg ∨ table.IsObject param)
    (saturated : table.AssignsSaturated found) (run : table.matchWithin depth param arg found = .ok mapping) :
    table.AssignsSaturated mapping := by
  induction depth generalizing param arg found mapping with
  | zero => cases run
  | succ depth ih =>
      cases isParam : table.get? param with
      | none => simp [matchWithin, get, isParam, bind, Except.bind] at run
      | some type =>
          by_cases constant : type.kind ≠ .typevar
          · cases isArg : table.get? arg with
            | none =>
                rw [matchWithin, get_eq_ok.mpr isParam] at run
                cases type <;> simp_all [get, bind, Except.bind, TypeDef.kind]
            | some argType =>
                rw [matchWithin_parts isParam isArg constant] at run
                split at run
                · split at run
                  · rename_i inner isPointee
                    refine ih ?_ saturated run
                    rcases suits with isSaturated | ⟨object, isObject⟩
                    · exact .inl isSaturated
                    · obtain rfl := Option.some.inj (isObject.symm.trans isParam)
                      cases isPointee
                  · obtain rfl := Except.ok.inj run
                    exact saturated
                · split at run
                  · rename_i corresponds
                    exact foldlM_saturated (fun pair member found mapping saturated run =>
                      ih (wellScoped.suits_of_zip isParam isArg corresponds member) saturated run) saturated run
                  · obtain rfl := Except.ok.inj run
                    exact saturated
          · obtain ⟨name, rfl⟩ := exists_typevar (not_not.mp constant)
            rw [matchWithin_typevar isParam] at run
            obtain rfl := Except.ok.inj run
            split
            · exact saturated
            · refine List.forall_mem_append.mpr ⟨saturated, List.forall_mem_singleton.mpr ?_⟩
              rcases suits with isSaturated | ⟨object, isObject⟩
              · exact isSaturated
              · cases isObject.symm.trans isParam

theorem WellScoped.matchArguments_saturated (wellScoped : table.WellScoped) {params args : List TypeId}
    {mapping : Substitution} (saturated : ∀ arg ∈ args, table.IsSaturated arg)
    (run : table.matchArguments params args = .ok mapping) : table.AssignsSaturated mapping := by
  refine foldlM_saturated (fun pair member found mapping assigns run => ?_) (by simp [AssignsSaturated]) run
  exact wellScoped.matchWithin_saturated (.inl (saturated pair.2 (List.of_mem_zip member).2)) assigns run

theorem WellScoped.valueTypeWithin_saturated (wellScoped : table.WellScoped) {depth : Nat} {id value : TypeId}
    (saturated : table.IsSaturated id) (run : table.valueTypeWithin depth id = .ok value) : table.IsSaturated value := by
  induction depth generalizing id with
  | zero => cases run
  | succ depth ih =>
      obtain ⟨type, found, noParams⟩ := saturated
      unfold valueTypeWithin at run
      rw [get_eq_ok.mpr found] at run
      cases isPointee : type.pointee? with
      | none =>
          obtain rfl : _ = value := by simpa [isPointee, bind, Except.bind, pure, Except.pure] using run
          exact ⟨type, found, noParams⟩
      | some inner =>
          have rest : table.valueTypeWithin depth inner = .ok value := by
            simpa [isPointee, bind, Except.bind] using run
          refine ih ?_ rest
          rcases wellScoped.saturated_part found (parts_of_pointee? isPointee) with saturated | ⟨args, rfl⟩
          · exact saturated
          · cases isPointee

end Matching

theorem WellScoped.grows (wellScoped : table.WellScoped) (proper : larger.Proper) (extends_ : table.Extends larger)
    (composed : larger.Composed) (declares : table.DeclaresNone larger)
    (builtIns : ∀ id ∈ larger.builtIns, id ∈ table.builtIns ∨ larger.InScope ∅ id) : larger.WellScoped := by
  have stays {vars : Set TypeId} {id : TypeId} : table.InScope vars id → larger.InScope vars id :=
    wellScoped.toWellFormed.inScope_extends extends_
  refine ⟨proper, composed, fun id member => ?_, fun id type found part member => ?_⟩
  · rcases builtIns id member with before | inScope
    · exact stays (wellScoped.constants id before)
    · exact inScope
  · exact stays (wellScoped.behind id type (declares id type (List.ne_nil_of_mem member) found) part member)

end TypeTable

namespace TableM

open TypeTable

variable {table : TypeTable} {id : TypeId} {vars : Set TypeId}

section Making

/-- What runs on a well-scoped table gives a type in scope, and leaves the table well-scoped. -/
def Fills (vars : Set TypeId) (action : TableM TypeId) (table : TypeTable) : Prop :=
  Gives WellScoped Extends (fun id larger => larger.InScope vars id) action table

theorem intern_declaresNone {type : TypeDef} (structural : type.isStructural = true) :
    (intern type).Preserves DeclaresNone :=
  intern_addsNone fun named => named (TypeDef.behind_of_isStructural structural)

/-- What makes no built-in types and declares no names fills with saturated types that mention what is in scope. -/
theorem fills_of_makes {action : TableM TypeId} (wellScoped : table.WellScoped) (makes : Makes action table)
    (composes : Composes action table) (declares : action.Preserves DeclaresNone) (same : action.Preserves SameBuiltIns)
    (mentions : ∀ id larger, action table = .ok id larger → larger.WellFormed → table.Extends larger →
      ∀ var, (larger.tree id).Mentions var → var ∈ vars) : Fills vars action table := by
  intro id larger run
  obtain ⟨⟨proper, extends_⟩, -⟩ := makes.of_ok run
  obtain ⟨⟨composed, -⟩, saturated⟩ := composes id larger run
  have builtIns : ∀ other ∈ larger.builtIns, other ∈ table.builtIns ∨ larger.InScope ∅ other :=
    fun other member => .inl (same.of_ok run ▸ member)
  exact ⟨⟨wellScoped.grows proper extends_ composed (declares.of_ok run) builtIns, extends_⟩,
    saturated, mentions id larger run proper.toWellFormed extends_⟩

theorem intern_fills {type : TypeDef} (wellScoped : table.WellScoped) (structural : type.isStructural = true)
    (makes : Makes (intern type) table) (operands : ∀ operand ∈ type.operands, table.InScope vars operand) :
    Fills vars (intern type) table := by
  refine fills_of_makes wellScoped makes
    (intern_composes wellScoped.composed structural fun operand member => (operands operand member).saturated)
    (intern_declaresNone structural) (intern_sameBuiltIns type) fun id larger run wellFormed extends_ => ?_
  refine (wellFormed.inScope (intern_eq_ok run) ?_ (typeParams_of_isStructural structural) fun operand member =>
    wellScoped.toWellFormed.inScope_extends extends_ (operands operand member)).mentioned
  intro isVariable
  cases type <;> cases isVariable
  cases structural

theorem instantiate_fills {head : TypeId} {args : List TypeId} (wellScoped : table.WellScoped)
    (makes : Makes (instantiate head args) table) (inScope : ∀ arg ∈ args, table.InScope vars arg) :
    Fills vars (instantiate head args) table := by
  refine fills_of_makes wellScoped makes
    (instantiate_composes wellScoped.composed fun arg member => (inScope arg member).saturated)
    (instantiate_preserves (fun _ => intern_declaresNone) head args)
    (instantiate_preserves (fun type _ => intern_sameBuiltIns type) head args) fun id larger run wellFormed extends_ => ?_
  exact (wellFormed.inScope (instantiate_eq_ok run) (by simp [TypeDef.kind]) rfl fun arg member =>
    wellScoped.toWellFormed.inScope_extends extends_ (inScope arg member)).mentioned

theorem builtIn_fills {known : TypeTable → Option TypeId} {remember : TypeId → TypeTable → TypeTable}
    {type : TypeDef} (isBuiltIn : IsBuiltIn known remember type) (constant : type.kind ≠ .typevar)
    (wellScoped : table.WellScoped) : Fills ∅ (builtIn known remember type) table := by
  have noParams : type.typeParams = [] := by
    cases type <;> first | rfl | exact absurd rfl (isBuiltIn.notObject _)
  have noOperands : type.operands = [] :=
    List.subset_nil.mp (isBuiltIn.parts ▸ operands_subset_parts type)
  have nothing : type.behind = [] := by
    have noParts := isBuiltIn.parts
    cases type <;> first | rfl | exact absurd rfl (isBuiltIn.notObject _) | cases noParts
  intro id larger run
  obtain ⟨⟨proper, extends_⟩, -⟩ := (builtIn_makes isBuiltIn wellScoped.toProper).of_ok run
  have adds : (builtIn known remember type).Preserves DeclaresNone := builtIn_addsNone isBuiltIn (not_not.mpr nothing)
  have declares := adds.of_ok run
  unfold builtIn at run
  rw [get_bind_run] at run
  cases found : known table with
  | some other =>
      rw [found] at run
      obtain ⟨rfl, rfl⟩ := EStateM.Result.ok.inj run
      exact ⟨⟨wellScoped, .refl _⟩, wellScoped.constants _ (isBuiltIn.isKnown _ _ found)⟩
  | none =>
      rw [found] at run
      obtain ⟨rfl, rfl⟩ := EStateM.Result.ok.inj run
      have inScope : (remember table.nextId (table.add type).2).InScope ∅ table.nextId :=
        proper.toWellFormed.inScope (isBuiltIn.get?_remember table) constant noParams (by simp [noOperands])
      have added : (table.add type).2.Composed := wellScoped.composed.add (by simp [noOperands])
      have composed : (remember table.nextId (table.add type).2).Composed :=
        composed_of_get? added fun other => by simp only [get?, cell?, isBuiltIn.sameCells]
      refine ⟨⟨wellScoped.grows proper extends_ composed declares fun other member => ?_, extends_⟩, inScope⟩
      rcases isBuiltIn.remembers _ _ other member with rfl | before
      · exact .inr inScope
      · exact .inl before

theorem typevar_fills (wellScoped : table.WellScoped) (name : String) : Fills Set.univ (typevar name) table := by
  have makes : Makes (typevar name) table :=
    addNamed_makes wellScoped.toProper rfl (by simp) (by simp [TypeDef.parts])
  have adds : Composes (typevar name) table := by
    intro id larger run
    obtain ⟨rfl, rfl⟩ := EStateM.Result.ok.inj run
    exact ⟨⟨wellScoped.composed.add (by simp [TypeDef.operands]), extends_add table _⟩,
      _, (get?_add table _ _).trans (if_pos rfl), rfl⟩
  exact fills_of_makes wellScoped makes adds (fun table => table.addsNone_add (by simp [TypeDef.behind]))
    (fun _ => rfl) fun _ _ _ _ _ _ _ => trivial

theorem substitute_fills {mapping : Substitution} (wellScoped : table.WellScoped) (saturated : table.IsSaturated id)
    (values : ∀ pair ∈ mapping, table.IsSaturated pair.2) : Fills Set.univ (substitute mapping id) table :=
  fills_of_makes wellScoped (substitute_makes wellScoped.toProper saturated.has fun pair member => (values pair member).has)
    (substitute_composes wellScoped.composed values saturated)
    (substitute_preserves (fun _ => intern_declaresNone) mapping id)
    (substitute_preserves (fun type _ => intern_sameBuiltIns type) mapping id) fun _ _ _ _ _ _ _ => trivial

/-- An object without a body has nothing behind its name. -/
theorem declareObject_scopes (wellScoped : table.WellScoped) (name : String) (params : List String) (span : Span) :
    Gives WellScoped Extends (fun id larger => larger.IsObject id) (declareObject name params span) table := by
  intro id larger run
  obtain ⟨⟨proper, extends_⟩, object, found⟩ := (declareObject_yields wellScoped.toProper name params span).of_ok run
  have adds : (declareObject name params span).Preserves DeclaresNone :=
    declareObject_addsNone (by simp +contextual [TypeDef.behind, Body.slots]) (by simp [TypeDef.behind]) name params span
  have declares := adds.of_ok run
  obtain ⟨rfl, rfl⟩ := EStateM.Result.ok.inj ((declareObject_run table name params span).symm.trans run)
  have composed : (table.withObject name params span).Composed := by
    intro other type known operand member
    obtain ⟨_, rfl⟩ | before := withTypevars_type known
    · cases member
    · exact (wellScoped.composed.add (by simp [TypeDef.operands]) other type before operand member).extends_
        (withTypevars_extends _ params)
  refine ⟨⟨wellScoped.grows proper extends_ composed declares fun other member => .inl ?_, extends_⟩, object, found⟩
  exact table.withObject_sameBuiltIns name params span ▸ member

/-- A distinct type hides no type variables. -/
theorem declareDistinct_fills {underlying : TypeId} (wellScoped : table.WellScoped)
    (inScope : table.InScope ∅ underlying) (name : String) (span : Span) :
    Fills ∅ (declareDistinct name underlying span) table := by
  have parts : ∀ part ∈ (TypeDef.distinct name underlying span).parts, table.Has part := by
    simpa [TypeDef.parts] using inScope.saturated.has
  have makes : Makes (declareDistinct name underlying span) table :=
    addNamed_makes wellScoped.toProper rfl (by simp) parts
  intro id larger run
  obtain ⟨⟨proper, extends_⟩, -⟩ := Yields.gives makes id larger run
  have made : declareDistinct name underlying span table =
      .ok table.nextId (table.add (.distinct name underlying span)).2 := rfl
  obtain ⟨rfl, rfl⟩ := EStateM.Result.ok.inj (made.symm.trans run)
  have stays {vars : Set TypeId} {id : TypeId} :
      table.InScope vars id → (table.add (.distinct name underlying span)).2.InScope vars id :=
    wellScoped.toWellFormed.inScope_extends extends_
  have found := (get?_add table (.distinct name underlying span) _).trans (if_pos rfl)
  have made : (table.add (.distinct name underlying span)).2.InScope ∅ (table.size + 1 : Int) :=
    proper.toWellFormed.inScope found (by simp [TypeDef.kind]) rfl (by simp [TypeDef.operands])
  refine ⟨⟨⟨proper, wellScoped.composed.add (by simp [TypeDef.operands]), fun other member =>
    stays (wellScoped.constants other member), fun other type known part member => ?_⟩, extends_⟩, made⟩
  rw [get?_add] at known
  split at known
  · obtain rfl := Option.some.inj known
    obtain rfl := List.mem_singleton.mp member
    exact (stays inScope).mono (Set.empty_subset _)
  · exact stays (wellScoped.behind other type known part member)

end Making

section Defining

/-- A body is given to an object with its type parameters in scope. -/
theorem defineObject_scopes {contents : Body} {object : ObjectType} (wellScoped : table.WellScoped)
    (found : table.get? id = some (.object object))
    (inScope : ∀ slot ∈ contents.slots, table.InScope {var | var ∈ object.params} slot.type) :
    Gives WellScoped Keeps (fun _ larger => larger.tree = table.tree) (defineObject id contents) table := by
  intro _ larger run
  have yields := defineObject_yields wellScoped.toProper ⟨object, found⟩ fun slot member => (inScope slot member).saturated.has
  obtain ⟨⟨proper, keeps⟩, -⟩ := yields.of_ok run
  obtain ⟨-, rfl⟩ := EStateM.Result.ok.inj ((defineObject_run found contents).symm.trans run)
  have redefines := withBody_redefines wellScoped.instances found contents
  -- The object keeps its type parameters, so what was in scope stays so.
  have saturated {other : TypeId} (saturated : table.IsSaturated other) :
      (table.withBody id object contents).IsSaturated other := by
    obtain ⟨type, known, noParams⟩ := saturated
    unfold IsSaturated
    rw [redefines.types]
    split
    · subst other
      obtain rfl := Option.some.inj (found.symm.trans known)
      exact ⟨_, rfl, noParams⟩
    · exact ⟨type, known, noParams⟩
  have stays {vars : Set TypeId} {other : TypeId} (inScope : table.InScope vars other) :
      (table.withBody id object contents).InScope vars other :=
    ⟨saturated inScope.saturated, by rw [redefines.tree_eq]; exact inScope.mentioned⟩
  refine ⟨⟨⟨proper, fun other type known operand member => ?_, fun other member => ?_, fun other type known part member => ?_⟩,
    keeps⟩, redefines.tree_eq⟩
  · rw [redefines.types] at known
    split at known
    · obtain rfl := Option.some.inj known
      cases member
    · exact saturated (wellScoped.composed other type known operand member)
  · exact stays (wellScoped.constants other ((table.builtIns_modifyCell id _) ▸ member))
  · rw [redefines.types] at known
    split at known
    · obtain rfl := Option.some.inj known
      obtain ⟨slot, isSlot, rfl⟩ := List.mem_map.mp member
      exact stays (inScope slot isSlot)
    · exact stays (wellScoped.behind other type known part member)

end Defining

section Asking

theorem body_declaresNone (id : TypeId) : (body id).Preserves DeclaresNone :=
  body_addsNone (fun _ structural named => named (TypeDef.behind_of_isStructural structural)) id

theorem body_grows {result : Body} {larger : TypeTable} (wellScoped : table.WellScoped)
    (run : body id table = .ok result larger) : larger.WellScoped ∧ table.Extends larger := by
  have has : table.Has id := by
    obtain ⟨type, middle, fetched, -⟩ := bind_eq_ok.mp run
    exact has_of_get? (fetch_eq_ok.mp fetched).1
  obtain ⟨⟨proper, extends_⟩, -⟩ := (body_yields wellScoped.toProper has).of_ok run
  have composed := body_composed wellScoped.composed wellScoped.holdsSaturated run
  have builtIns := (body_sameBuiltIns id).of_ok run
  exact ⟨wellScoped.grows proper extends_ composed ((body_declaresNone id).of_ok run) fun other member =>
    .inl (builtIns ▸ member), extends_⟩

/-- How deeply a type nests is remembered, and nothing else. -/
theorem nesting_grows {depth : Nat} {larger : TypeTable} (wellScoped : table.WellScoped)
    (run : nesting id table = .ok depth larger) : larger.WellScoped ∧ table.Extends larger := by
  have makes (such : TypeDef → Prop) : (nesting id).Preserves (AddsNone such) := by
    refine leads_get.bind fun _ => nestingWithin_preserves (fun table id depth => addsNone_of_get? fun other => ?_) _ id
    refine table.get?_modifyCell ?_ id other
    exact fun _ => rfl
  have extends_ := (nesting_extends id).of_ok run
  have same := (nesting_sameBuiltIns id).of_ok run
  have regular := ((nesting_unrolls id).of_ok run wellScoped.toRegular).1
  have composed : larger.Composed := fun other type found operand member =>
    (wellScoped.composed other type ((makes fun _ => True).of_ok run other type trivial found) operand member).extends_ extends_
  exact ⟨wellScoped.grows (wellScoped.toProper.grows regular extends_ same).1 extends_ composed ((makes _).of_ok run)
    fun other member => .inl (same ▸ member), extends_⟩

/-- The constituents of a type are looked up in its body, if it has one. -/
theorem constituents_table {slots : List Slot} {larger : TypeTable} (run : constituents id table = .ok slots larger) :
    larger = table ∨ ∃ result, body id table = .ok result larger := by
  obtain ⟨type, middle, fetched, rest⟩ := bind_eq_ok.mp run
  obtain ⟨-, same⟩ := fetch_eq_ok.mp fetched
  rw [same] at rest
  have asks (asked : (do return (← body id).slots : TableM (List Slot)) table = .ok slots larger) :
      ∃ result, body id table = .ok result larger := by
    obtain ⟨result, later, ran, rest⟩ := bind_eq_ok.mp asked
    obtain ⟨-, rfl⟩ := EStateM.Result.ok.inj rest
    exact ⟨result, ran⟩
  cases type with
  | object object => exact .inr (asks rest)
  | applied head args => exact .inr (asks rest)
  | wrap wrapper inner => cases wrapper <;> exact .inl (EStateM.Result.ok.inj rest).2.symm
  | _ => exact .inl (EStateM.Result.ok.inj rest).2.symm

theorem constituents_grows {slots : List Slot} {larger : TypeTable} (wellScoped : table.WellScoped)
    (run : constituents id table = .ok slots larger) : larger.WellScoped ∧ table.Extends larger := by
  rcases constituents_table run with rfl | ⟨result, asked⟩
  · exact ⟨wellScoped, .refl _⟩
  · exact body_grows wellScoped asked

/-- What a type leads to mentions what the type mentions. -/
theorem constituents_scopes (wellScoped : table.WellScoped) (inScope : table.InScope vars id) :
    Gives WellScoped Extends (fun slots larger => ∀ slot ∈ slots, larger.InScope vars slot.type)
      (constituents id) table := by
  intro slots larger run
  have wellFormed := wellScoped.toWellFormed
  have has := inScope.saturated.has
  have grown := constituents_grows wellScoped run
  obtain ⟨found, last, works, -, -, trees, hasSlots⟩ := constituents_works wellFormed has
  obtain ⟨rfl, rfl⟩ := EStateM.Result.ok.inj (works.symm.trans run)
  refine ⟨grown, fun slot member => ?_⟩
  refine grown.1.inScope_constituent (wellFormed.inScope_extends grown.2 inScope) (hasSlots slot member) ?_
  rw [wellFormed.constituentTrees_extends grown.2 has, ← trees]
  exact List.mem_map_of_mem member

/-- The body of a type holds its constituents, or nothing. -/
theorem constituents_of_body {result : Body} {larger : TypeTable} (run : body id table = .ok result larger) :
    result.slots = [] ∨ constituents id table = .ok result.slots larger := by
  obtain ⟨type, middle, fetched, rest⟩ := bind_eq_ok.mp run
  obtain ⟨found, same⟩ := fetch_eq_ok.mp fetched
  rw [same] at rest
  have asks : (do return (← body id).slots : TableM (List Slot)) table = .ok result.slots larger := by
    rw [bind_run_of_ok run]
    rfl
  unfold constituents
  rw [bind_run_of_ok (fetch_run found)]
  cases type with
  | object object => exact .inr asks
  | applied head args => exact .inr asks
  | _ =>
      obtain ⟨rfl, -⟩ := EStateM.Result.ok.inj rest
      exact .inl rfl

theorem body_scopes (wellScoped : table.WellScoped) (inScope : table.InScope vars id) :
    Gives WellScoped Extends (fun result larger => ∀ slot ∈ result.slots, larger.InScope vars slot.type)
      (body id) table := by
  intro result larger run
  refine ⟨body_grows wellScoped run, ?_⟩
  rcases constituents_of_body run with nothing | asked
  · simp [nothing]
  · exact (constituents_scopes wellScoped inScope _ _ asked).2

/-- A field that is found along bases mentions what the type mentions. -/
theorem fieldTypeFrom_scopes (name : String) (fuel : Nat) (seen : List TypeId) (wellScoped : table.WellScoped)
    (inScope : table.InScope vars id) :
    Gives WellScoped Extends (fun found larger => ∀ type ∈ found, larger.InScope vars type)
      (fieldTypeFrom name fuel seen id) table := by
  induction fuel generalizing seen id table with
  | zero => exact gives_throw _
  | succ fuel ih =>
      unfold fieldTypeFrom
      split
      · exact gives_pure wellScoped (by simp)
      · apply (body_scopes wellScoped inScope).bind
        intro body larger onwards _ inside
        split
        · rename_i field isField
          refine gives_pure onwards fun type member => ?_
          obtain rfl := Option.mem_some.mp member
          apply inside ⟨.field field.name, field.type⟩
          exact List.mem_append_right _ (List.mem_map_of_mem (List.mem_of_find?_eq_some isField))
        · rename_i base _ isBase
          exact ih (id :: seen) onwards (inside ⟨.base, base⟩ (by simp [Body.slots, isBase]))
        · exact gives_pure onwards (by simp)

end Asking
end TableM
end LifecycleHooks

import LifecycleHooks.Proofs.Types.Making
import LifecycleHooks.Proofs.Types.Variables

/-!
# Matching the types of arguments

The type of an argument is matched with that of its parameter to find what the type
variables stand for.  Where it is what an assignment makes of the parameter, matching finds
the assignment at all variables that the parameter mentions.  An argument with a mode that
its parameter does not have is passed over, so that nothing is found there.
-/

namespace LifecycleHooks
namespace TypeTable

variable {table : TypeTable} {assign : TypeId → Option TypeTree} {param arg : Int} {type argType : TypeDef}
  {vars : Set TypeId} {found mapping : Substitution}

/-- The type of an argument is what an assignment makes of the type of a parameter, all of
whose variables are assigned. -/
structure Instantiates (table : TypeTable) (assign : TypeId → Option TypeTree) (param arg : TypeId) : Prop where
  has : table.Has param
  hasArg : table.Has arg
  assigned : ∀ id, (table.tree param).Mentions id → (assign id).isSome = true
  spelled : table.tree arg = (table.tree param).substitute assign

/-- The matched types are those that an assignment gives to some type variables. -/
structure Solves (table : TypeTable) (assign : TypeId → Option TypeTree) (vars : Set TypeId)
    (mapping : Substitution) : Prop where
  values : ∀ pair ∈ mapping, table.Has pair.2 ∧ assign pair.1 = some (table.tree pair.2)
  bound : ∀ id, (mapping.lookup id).isSome = true ↔ id ∈ vars

section Instances

/-- A type without variables is an instance of itself. -/
theorem Instantiates.refl (has : table.Has param) (closed : (table.tree param).IsClosed) :
    table.Instantiates assign param param :=
  ⟨has, has, fun id mentions => absurd mentions (closed id),
    (TypeTree.substitute_eq_self fun id mentions => absurd mentions (closed id)).symm⟩

/-- The operands of an instance are instances of the operands. -/
theorem Instantiates.operands (wellFormed : table.WellFormed) (isParam : table.get? param = some type)
    (constant : type.kind ≠ .typevar) (instantiates : table.Instantiates assign param arg) :
    ∃ argType, table.get? arg = some argType ∧ argType.label arg = type.label param ∧
      List.Forall₂ (table.Instantiates assign) type.operands argType.operands := by
  obtain ⟨argType, isArg⟩ := instantiates.hasArg.exists
  have spelled := instantiates.spelled
  rw [wellFormed.tree_eq isArg, wellFormed.tree_eq isParam,
    TypeTree.substitute_node (label_constant constant param), List.map_map] at spelled
  obtain ⟨sameLabel, sameOperands⟩ := TypeTree.node.inj spelled
  have pairwise : List.Forall₂ (fun operand other => (table.tree operand).substitute assign = table.tree other)
      type.operands argType.operands := by
    have same : List.Forall₂ Eq (type.operands.map (TypeTree.substitute assign ∘ table.tree))
        (argType.operands.map table.tree) := by
      rw [List.forall₂_eq_eq_eq, sameOperands]
    simpa only [List.forall₂_map_left_iff, List.forall₂_map_right_iff, Function.comp_apply] using same
  obtain ⟨sameLength, pairwise⟩ := List.forall₂_iff_zip.mp pairwise
  refine ⟨argType, isArg, sameLabel, List.forall₂_iff_zip.mpr ⟨sameLength, fun {operand other} member => ?_⟩⟩
  obtain ⟨isOperand, isOther⟩ := List.of_mem_zip member
  refine ⟨(wellFormed.operand isParam isOperand).1, (wellFormed.operand isArg isOther).1, fun id mentions => ?_,
    (pairwise member).symm⟩
  apply instantiates.assigned
  rw [wellFormed.tree_eq isParam, TypeTree.mentions_node (label_constant constant param)]
  exact ⟨_, List.mem_map_of_mem isOperand, mentions⟩

/-- The parts of an instance correspond to the parts of the type, and are instances of them. -/
theorem Instantiates.parts (wellFormed : table.WellFormed) (closed : table.DistinctsClosed)
    (isParam : table.get? param = some type) (constant : type.kind ≠ .typevar)
    (instantiates : table.Instantiates assign param arg) :
    ∃ argType, table.get? arg = some argType ∧ type.kind = argType.kind ∧ type.corresponds argType = true ∧
      List.Forall₂ (table.Instantiates assign) type.parts argType.parts := by
  obtain ⟨argType, isArg, sameLabel, operands⟩ := instantiates.operands wellFormed isParam constant
  refine ⟨argType, isArg, ?_⟩
  cases structural : type.isStructural with
  | false =>
      obtain rfl := TypeDef.eq_id_of_label structural sameLabel
      obtain rfl := Option.some.inj (isParam.symm.trans isArg)
      refine ⟨rfl, ?_, ?_⟩
      · cases type <;> simp_all [TypeDef.isStructural, TypeDef.corresponds]
      · refine List.forall₂_same.mpr fun part member => ?_
        refine .refl (wellFormed.part isParam member).1 fun id mentions => ?_
        have mentioned := (wellFormed.mentions_parts closed isParam constant).mpr ⟨part, member, mentions⟩
        rw [wellFormed.tree_eq isParam, TypeTree.mentions_node (label_constant constant arg)] at mentioned
        cases type <;> simp_all [TypeDef.isStructural, TypeDef.operands]
  | true =>
      cases type with
      | applied head args =>
          cases argType with
          | applied other others =>
              obtain rfl : other = head := by simpa [TypeDef.label] using sameLabel
              obtain ⟨object, isObject, -⟩ := wellFormed.applied param other args isParam
              refine ⟨rfl, by simpa [TypeDef.corresponds, TypeDef.operands] using operands.length_eq, .cons ?_ operands⟩
              refine .refl (has_of_get? isObject) fun id mentions => ?_
              rw [wellFormed.tree_eq isObject, TypeTree.mentions_node (by simp [TypeDef.label])] at mentions
              simp [TypeDef.operands] at mentions
          | _ => simp [TypeDef.label] at sameLabel
      | array length element =>
          cases argType with
          | array otherLength other => exact ⟨rfl, rfl, operands⟩
          | _ => simp [TypeDef.label] at sameLabel
      | tuple elements =>
          cases argType with
          | tuple others => exact ⟨rfl, by simpa [TypeDef.corresponds] using ⟨rfl, operands.length_eq⟩, operands⟩
          | _ => simp [TypeDef.label] at sameLabel
      | wrap wrapper inner =>
          cases argType with
          | wrap other argInner =>
              obtain rfl : other = wrapper := by simpa [TypeDef.label] using sameLabel
              exact ⟨rfl, by simp [TypeDef.corresponds, TypeDef.kind, TypeDef.parts], operands⟩
          | _ => simp [TypeDef.label] at sameLabel
      | _ => cases structural

end Instances

section Solving

/-- Nothing is known before anything is matched. -/
theorem solves_nil : table.Solves assign ∅ [] :=
  ⟨by simp, by simp⟩

/-- What is known of no further variables stays known. -/
theorem Solves.congr {others : Set TypeId} (solves : table.Solves assign vars mapping) (same : vars = others) :
    table.Solves assign others mapping :=
  same ▸ solves

/-- A variable that was found stands for what it is assigned. -/
theorem Solves.mappedTrees_eq (solves : table.Solves assign vars mapping) {id : TypeId} (bound : id ∈ vars) :
    table.mappedTrees mapping id = assign id := by
  obtain ⟨value, found⟩ := Option.isSome_iff_exists.mp ((solves.bound id).mpr bound)
  rw [mappedTrees, found, Option.map_some]
  exact (solves.values _ (mem_of_lookup found)).2.symm

theorem Solves.mappedTrees_eq_none (solves : table.Solves assign vars mapping) {id : TypeId} :
    table.mappedTrees mapping id = none ↔ id ∉ vars := by
  rw [← solves.bound id, mappedTrees, Option.map_eq_none_iff, Option.not_isSome_iff_eq_none]

/-- Just the variables that were not found are left. -/
theorem Solves.mentions_iff (solves : table.Solves assign vars mapping)
    (closed : ∀ id tree, assign id = some tree → tree.IsClosed) {tree : TypeTree} {id : TypeId} :
    (tree.substitute (table.mappedTrees mapping)).Mentions id ↔ tree.Mentions id ∧ id ∉ vars := by
  rw [TypeTree.mentions_substitute, solves.mappedTrees_eq_none]
  intro other tree mapped
  by_cases bound : other ∈ vars
  · exact closed other tree (solves.mappedTrees_eq bound ▸ mapped)
  · rw [solves.mappedTrees_eq_none.mpr bound] at mapped
    cases mapped

/-- What was found makes of a type what the assignment makes of it just when no assigned variable
of the type is missing. -/
theorem Solves.substitute_eq_iff (solves : table.Solves assign vars mapping)
    (closed : ∀ id tree, assign id = some tree → tree.IsClosed) {tree : TypeTree} :
    tree.substitute (table.mappedTrees mapping) = tree.substitute assign ↔
      ∀ id, tree.Mentions id → (assign id).isSome = true → id ∈ vars := by
  constructor
  · intro same id mentions assigned
    by_contra missing
    have left := (solves.mentions_iff closed).mpr ⟨mentions, missing⟩
    rw [same, TypeTree.mentions_substitute closed] at left
    rw [left.2] at assigned
    cases assigned
  · intro all
    refine TypeTree.substitute_congr fun id mentions => ?_
    by_cases bound : id ∈ vars
    · exact solves.mappedTrees_eq bound
    · rw [solves.mappedTrees_eq_none.mpr bound]
      exact (Option.not_isSome_iff_eq_none.mp fun assigned => bound (all id mentions assigned)).symm

/-- A variable that is bound for the first time stands for the type it is matched with, and
one that was bound before stands for it already. -/
theorem Solves.bind (solves : table.Solves assign vars found) (hasArg : table.Has arg)
    (assigned : assign param = some (table.tree arg)) :
    table.Solves assign (vars ∪ {param})
      (if (found.lookup param).isSome then found else found ++ [(param, arg)]) := by
  split
  · rename_i before
    refine solves.congr (Set.union_eq_self_of_subset_right ?_).symm
    simpa using (solves.bound param).mp before
  · rename_i fresh
    refine ⟨List.forall_mem_append.mpr ⟨solves.values, by simpa using ⟨hasArg, assigned⟩⟩, fun id => ?_⟩
    rw [List.lookup_append, Option.isSome_or, Bool.or_eq_true, solves.bound id]
    by_cases same : id = param <;> simp [same]

/-- What each item adds is known after all have been matched. -/
theorem foldlM_solves {Item : Type} {items : List Item} {adds : Item → Set TypeId}
    {matchItem : Substitution → Item → Except Fault Substitution}
    (each : ∀ item ∈ items, ∀ vars found, table.Solves assign vars found →
      ∃ mapping, matchItem found item = .ok mapping ∧ table.Solves assign (vars ∪ adds item) mapping)
    (solves : table.Solves assign vars found) :
    ∃ mapping, items.foldlM matchItem found = .ok mapping ∧
      table.Solves assign (vars ∪ {id | ∃ item ∈ items, id ∈ adds item}) mapping := by
  induction items generalizing vars found with
  | nil => exact ⟨found, rfl, solves.congr (by simp)⟩
  | cons item items ih =>
      obtain ⟨middle, first, between⟩ := each item List.mem_cons_self vars found solves
      obtain ⟨mapping, rest, last⟩ := ih (fun other member => each other (List.mem_cons_of_mem item member)) between
      refine ⟨mapping, by rw [List.foldlM_cons, first]; exact rest, last.congr ?_⟩
      ext id
      simp [or_assoc]

end Solving

section Matching

theorem isParamMode_of_kind (sameKind : type.kind = argType.kind) : type.isParamMode = argType.isParamMode := by
  cases type <;> cases argType <;> simp_all [TypeDef.kind, TypeDef.isParamMode]

theorem exists_mem_zip {First Second : Type} {items : List First} {others : List Second}
    (sameLength : items.length = others.length) {item : First} (member : item ∈ items) :
    ∃ other, (item, other) ∈ items.zip others := by
  rw [← List.map_fst_zip (le_of_eq sameLength)] at member
  obtain ⟨⟨first, other⟩, isPair, rfl⟩ := List.mem_map.mp member
  exact ⟨other, isPair⟩

/-- Matching an instance finds what its variables are assigned. -/
theorem matchWithin_solves (wellFormed : table.WellFormed) (closed : table.DistinctsClosed) {depth : Nat}
    (instantiates : table.Instantiates assign param arg) (deep : param.toNat ≤ depth)
    (solves : table.Solves assign vars found) :
    ∃ mapping, table.matchWithin depth param arg found = .ok mapping ∧
      table.Solves assign (vars ∪ {id | (table.tree param).Mentions id}) mapping := by
  induction depth generalizing param arg found vars with
  | zero =>
      obtain ⟨type, isParam⟩ := instantiates.has.exists
      have := (range_of_get? isParam).1
      omega
  | succ depth ih =>
      obtain ⟨type, isParam⟩ := instantiates.has.exists
      have positive := (range_of_get? isParam).1
      by_cases constant : type.kind = .typevar
      · obtain ⟨name, rfl⟩ := exists_typevar constant
        have only : {id | (table.tree param).Mentions id} = {param} := Set.ext fun id => wellFormed.mentions_typevar isParam
        have assigned : assign param = some (table.tree arg) := by
          have isAssigned := instantiates.assigned param ((wellFormed.mentions_typevar isParam).mpr rfl)
          obtain ⟨tree, assigned⟩ := Option.isSome_iff_exists.mp isAssigned
          rw [instantiates.spelled, wellFormed.tree_eq isParam, TypeDef.label, TypeTree.substitute, assigned,
            Option.getD_some]
        rw [matchWithin_typevar isParam, only]
        exact ⟨_, rfl, solves.bind instantiates.hasArg assigned⟩
      · obtain ⟨argType, isArg, sameKind, corresponds, parts⟩ := instantiates.parts wellFormed closed isParam constant
        have sameMode : (type.isParamMode && !argType.isParamMode) = false := by
          rw [isParamMode_of_kind sameKind, Bool.and_not_self]
        rw [matchWithin_parts isParam isArg constant, sameMode, if_neg Bool.false_ne_true, if_pos corresponds]
        have each : ∀ pair ∈ type.parts.zip argType.parts, ∀ vars found, table.Solves assign vars found →
            ∃ mapping, table.matchWithin depth pair.1 pair.2 found = .ok mapping ∧
              table.Solves assign (vars ∪ {id | (table.tree pair.1).Mentions id}) mapping := by
          intro pair member vars found solves
          have below := (wellFormed.part isParam (List.of_mem_zip member).1).2
          exact ih ((List.forall₂_iff_zip.mp parts).2 member) (by omega) solves
        obtain ⟨mapping, run, solved⟩ := foldlM_solves each solves
        refine ⟨mapping, run, solved.congr (congrArg (vars ∪ ·) (Set.ext fun id => ?_))⟩
        refine Iff.trans ?_ (wellFormed.mentions_parts closed isParam constant).symm
        constructor
        · rintro ⟨pair, member, mentions⟩
          exact ⟨pair.1, (List.of_mem_zip member).1, mentions⟩
        · rintro ⟨part, isPart, mentions⟩
          obtain ⟨other, member⟩ := exists_mem_zip parts.length_eq isPart
          exact ⟨(part, other), member, mentions⟩

end Matching

section Modes

/-- Whether matching passes over an argument: it has a mode, which its parameter does not have
and no type variable can stand for. -/
def PassesOver (table : TypeTable) (param arg : TypeId) : Prop :=
  ∃ type argType, table.get? param = some type ∧ table.get? arg = some argType ∧
    type.kind ≠ .typevar ∧ argType.isParamMode = true ∧ type.kind ≠ argType.kind

/-- The type of an argument is what an assignment makes of that of a parameter, all of whose
variables are assigned, up to an outer mode of either. -/
structure Suits (table : TypeTable) (assign : TypeId → Option TypeTree) (param arg : TypeId) : Prop where
  has : table.Has param
  hasArg : table.Has arg
  assigned : ∀ id, (table.tree param).Mentions id → (assign id).isSome = true
  sameValue : (table.tree arg).value = ((table.tree param).substitute assign).value

theorem matchWithin_passesOver (passesOver : table.PassesOver param arg) (depth : Nat) (found : Substitution) :
    table.matchWithin (depth + 1) param arg found = .ok found := by
  obtain ⟨type, argType, isParam, isArg, constant, mode, others⟩ := passesOver
  rw [matchWithin_parts isParam isArg constant, mode, if_neg (by simp), if_neg]
  cases type <;> cases argType <;> simp_all [TypeDef.corresponds, TypeDef.kind]

theorem exists_mode {type : TypeDef} (mode : type.isParamMode = true) :
    ∃ wrapper inner, type = .wrap wrapper inner ∧ wrapper.isParamMode = true := by
  cases type with
  | wrap wrapper inner => exact ⟨wrapper, inner, rfl, mode⟩
  | _ => cases mode

section Values

variable {wrapper : Wrapper} {inner : TypeId}

theorem WellFormed.mentions_wrap (wellFormed : table.WellFormed) (isParam : table.get? param = some (.wrap wrapper inner))
    {id : TypeId} : (table.tree param).Mentions id ↔ (table.tree inner).Mentions id := by
  rw [wellFormed.tree_eq isParam, TypeTree.mentions_node (by simp [TypeDef.label])]
  simp [TypeDef.operands]

/-- A mode is read as what it stands for. -/
theorem WellFormed.value_mode (wellFormed : table.WellFormed) (isParam : table.get? param = some (.wrap wrapper inner))
    (mode : wrapper.isParamMode = true) : (table.tree param).value = table.tree inner := by
  rw [wellFormed.tree_eq isParam]
  simp [TypeDef.operands, TypeDef.label, TypeTree.value, mode]

theorem WellFormed.value_substitute_mode (wellFormed : table.WellFormed)
    (isParam : table.get? param = some (.wrap wrapper inner)) (mode : wrapper.isParamMode = true)
    (assign : TypeId → Option TypeTree) :
    ((table.tree param).substitute assign).value = (table.tree inner).substitute assign := by
  rw [wellFormed.tree_eq isParam, TypeTree.substitute_node (by simp [TypeDef.label])]
  simp [TypeDef.operands, TypeDef.label, TypeTree.value, mode]

theorem value_of_label {label : TypeLabel} {operands : List TypeTree}
    (noMode : ∀ wrapper, label = .wrap wrapper → wrapper.isParamMode = false) :
    (TypeTree.node label operands).value = .node label operands := by
  unfold TypeTree.value
  split
  · rename_i wrapper inner same
    obtain ⟨rfl, rfl⟩ := TypeTree.node.inj same
    rw [noMode wrapper rfl, if_neg Bool.false_ne_true]
  · rfl

theorem label_noMode (noMode : type.isParamMode = false) {wrapper : Wrapper} (isWrap : type.label param = .wrap wrapper) :
    wrapper.isParamMode = false := by
  cases type <;> simp_all [TypeDef.label, TypeDef.isParamMode]

/-- A type without a mode is read as it is. -/
theorem WellFormed.value_of_noMode (wellFormed : table.WellFormed) (isParam : table.get? param = some type)
    (noMode : type.isParamMode = false) : (table.tree param).value = table.tree param := by
  rw [wellFormed.tree_eq isParam]
  exact value_of_label fun _ => label_noMode noMode

theorem WellFormed.value_substitute_of_noMode (wellFormed : table.WellFormed) (isParam : table.get? param = some type)
    (noMode : type.isParamMode = false) (constant : type.kind ≠ .typevar) (assign : TypeId → Option TypeTree) :
    ((table.tree param).substitute assign).value = (table.tree param).substitute assign := by
  rw [wellFormed.tree_eq isParam, TypeTree.substitute_node (label_constant constant param)]
  exact value_of_label fun _ => label_noMode noMode

end Values

/-- An argument that suits and is not passed over has the type that is made of that of its parameter,
or the one that is made of what a mode of the parameter stands for. -/
theorem Suits.cases (wellFormed : table.WellFormed) (suits : table.Suits assign param arg)
    (bare : ∀ name, table.get? param = some (.typevar name) → assign param = some (table.tree arg))
    (matched : ¬ table.PassesOver param arg) :
    table.Instantiates assign param arg ∨
      ∃ wrapper inner argType, table.get? param = some (.wrap wrapper inner) ∧ wrapper.isParamMode = true ∧
        table.get? arg = some argType ∧ argType.isParamMode = false ∧ table.Instantiates assign inner arg := by
  obtain ⟨type, isParam⟩ := suits.has.exists
  obtain ⟨argType, isArg⟩ := suits.hasArg.exists
  by_cases constant : type.kind = .typevar
  · obtain ⟨name, rfl⟩ := exists_typevar constant
    refine .inl ⟨suits.has, suits.hasArg, suits.assigned, ?_⟩
    rw [wellFormed.tree_eq isParam, TypeDef.label, TypeTree.substitute, bare name isParam, Option.getD_some]
  have sameKind : argType.isParamMode = true → type.kind = argType.kind := fun argMode =>
    not_not.mp fun others => matched ⟨type, argType, isParam, isArg, constant, argMode, others⟩
  cases mode : type.isParamMode with
  | true =>
      obtain ⟨wrapper, inner, rfl, isMode⟩ := exists_mode mode
      have sameValue := suits.sameValue.trans (wellFormed.value_substitute_mode isParam isMode assign)
      cases argMode : argType.isParamMode with
      | false =>
          rw [wellFormed.value_of_noMode isArg argMode] at sameValue
          refine .inr ⟨wrapper, inner, argType, isParam, isMode, isArg, argMode,
            (wellFormed.part isParam List.mem_cons_self).1, suits.hasArg, fun id mentions => ?_, sameValue⟩
          exact suits.assigned id ((wellFormed.mentions_wrap isParam).mpr mentions)
      | true =>
          obtain ⟨other, argInner, rfl, -⟩ := exists_mode argMode
          obtain rfl : wrapper = other := by simpa [TypeDef.kind] using sameKind argMode
          rw [wellFormed.value_mode isArg isMode] at sameValue
          refine .inl ⟨suits.has, suits.hasArg, suits.assigned, ?_⟩
          rw [wellFormed.tree_eq isArg, wellFormed.tree_eq isParam, TypeTree.substitute_node (by simp [TypeDef.label])]
          simp [TypeDef.operands, TypeDef.label, sameValue]
  | false =>
      have argMode : argType.isParamMode = false := Bool.eq_false_iff.mpr fun argMode => by
        rw [isParamMode_of_kind (sameKind argMode), argMode] at mode
        cases mode
      have sameValue := suits.sameValue.trans (wellFormed.value_substitute_of_noMode isParam mode constant assign)
      rw [wellFormed.value_of_noMode isArg argMode] at sameValue
      exact .inl ⟨suits.has, suits.hasArg, suits.assigned, sameValue⟩

/-- Matching an argument that suits finds what the variables of its parameter are assigned, unless
it passes over the argument.  A parameter that is a type variable takes the argument as it is. -/
theorem matchWithin_suits (wellFormed : table.WellFormed) (closed : table.DistinctsClosed) {depth : Nat}
    (suits : table.Suits assign param arg)
    (bare : ∀ name, table.get? param = some (.typevar name) → assign param = some (table.tree arg))
    (deep : param.toNat ≤ depth) (solves : table.Solves assign vars found) :
    ∃ mapping, table.matchWithin depth param arg found = .ok mapping ∧
      table.Solves assign (vars ∪ {id | ¬ table.PassesOver param arg ∧ (table.tree param).Mentions id}) mapping := by
  obtain ⟨positive, -⟩ := range_of_get? suits.has.exists.choose_spec
  obtain ⟨depth, rfl⟩ : ∃ less, depth = less + 1 := ⟨depth - 1, by omega⟩
  by_cases passesOver : table.PassesOver param arg
  · exact ⟨found, matchWithin_passesOver passesOver depth found, solves.congr (by simp [passesOver])⟩
  simp only [passesOver, not_false_eq_true, true_and]
  obtain instantiates | ⟨wrapper, inner, argType, isParam, isMode, isArg, argMode, instantiates⟩ :=
    suits.cases wellFormed bare passesOver
  · exact matchWithin_solves wellFormed closed instantiates deep solves
  · have below := (wellFormed.part isParam List.mem_cons_self).2
    have sameVars : {id | (table.tree param).Mentions id} = {id | (table.tree inner).Mentions id} :=
      Set.ext fun id => wellFormed.mentions_wrap isParam
    have isPointee : (TypeDef.wrap wrapper inner).pointee? = some inner := by
      cases wrapper <;> simp_all [Wrapper.isParamMode, TypeDef.pointee?]
    rw [matchWithin_parts isParam isArg (by simp [TypeDef.kind]), argMode, if_pos (by simpa [TypeDef.isParamMode]),
      isPointee, sameVars]
    exact matchWithin_solves wellFormed closed instantiates (by omega) solves

/-- Matching arguments that suit finds what the variables of their parameters are assigned, but
for those parameters whose arguments are passed over. -/
theorem matchArguments_suits (wellFormed : table.WellFormed) (closed : table.DistinctsClosed)
    {params args : List TypeId} (suits : ∀ pair ∈ params.zip args, table.Suits assign pair.1 pair.2)
    (bare : ∀ pair ∈ params.zip args, ∀ name, table.get? pair.1 = some (.typevar name) →
      assign pair.1 = some (table.tree pair.2)) :
    ∃ mapping, table.matchArguments params args = .ok mapping ∧
      table.Solves assign {id | ∃ pair ∈ params.zip args, ¬ table.PassesOver pair.1 pair.2 ∧
        (table.tree pair.1).Mentions id} mapping := by
  have each : ∀ pair ∈ params.zip args, ∀ vars found, table.Solves assign vars found →
      ∃ mapping, table.matchWithin (table.size + 1) pair.1 pair.2 found = .ok mapping ∧
        table.Solves assign (vars ∪ {id | ¬ table.PassesOver pair.1 pair.2 ∧ (table.tree pair.1).Mentions id})
          mapping :=
    fun pair member _ _ => matchWithin_suits wellFormed closed (suits pair member) (bare pair member)
      (suits pair member).has.toNat_le
  obtain ⟨mapping, run, solved⟩ := foldlM_solves each solves_nil
  exact ⟨mapping, run, solved.congr (Set.empty_union _)⟩

end Modes

end TypeTable

namespace TableM

open TypeTable

/-- Whether or not anything was found, the result has the substituted spelling. -/
theorem substitute_substituted {table : TypeTable} {mapping : Substitution} {id : TypeId}
    (wellFormed : table.WellFormed) (values : ∀ pair ∈ mapping, table.Has pair.2) (has : table.Has id) :
    ∃ result larger, substitute mapping id table = .ok result larger ∧
      table.Substituted mapping larger id result := by
  by_cases assigns : mapping = []
  · subst assigns
    exact ⟨id, table, rfl, has, (TypeTree.substitute_eq_self fun _ _ => rfl).symm⟩
  · obtain ⟨result, larger, run, -, -, substituted⟩ := substitute_works wellFormed assigns values has
    exact ⟨result, larger, run, substituted⟩

end TableM
end LifecycleHooks

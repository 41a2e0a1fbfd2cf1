import LifecycleHooks.Proofs.Procedure.Sites
import LifecycleHooks.Proofs.Program.Naming
import LifecycleHooks.Proofs.Scope.ExitSafety

/-!
# Assignments to the implicit result

In a procedure that gives a result, the value of an assignment stands at the site of results just
when lexical scope gives its target that meaning.  Where there is no result, the name of the target
decides alone, so that a local or a parameter can be taken for the implicit result.
-/

namespace LifecycleHooks

/-- An expression is a variable with the name of the implicit result. -/
def Expr.IsNamedResult : Expr → Prop
  | .var _ name _ => name = "result"
  | .integer .. | .boolean .. | .call .. | .field .. => False

/-- At a place the name of the implicit result stands for something that is declared around it. -/
def Place.HidesResult (place : Place) : Prop := "result" ∈ (namesAround place.around).map Prod.fst

instance (place : Place) : Decidable place.HidesResult :=
  inferInstanceAs (Decidable ("result" ∈ (namesAround place.around).map Prod.fst))

section Targets

variable {procedure : Procedure} {around : List Enclosing} {name : String} {id : BindingId}

theorem lookup_name_eq_none_iff {names : Names} : names.lookup name = none ↔ name ∉ names.map Prod.fst := by
  rw [List.lookup_eq_none_iff, List.mem_map]
  constructor
  · rintro other ⟨entry, member, rfl⟩
    simpa using other entry member
  · intro absent entry member
    exact bne_iff_ne.mpr fun same => absent ⟨entry, member, same.symm⟩

/-- A name stands for the implicit result just when it is the name of that and nothing declared
around hides it. -/
theorem Procedure.lookup_result_iff (isResult : procedure.resultBinding = some id)
    (declared : DeclaredGiven procedure.IsLocal around)
    (apart : some id ∉ procedure.params.map Param.binding) :
    (namesAround around ++ procedure.outerNames).lookup name = some id ↔
      name = "result" ∧ name ∉ (namesAround around).map Prod.fst := by
  have outer : procedure.outerNames = ("result", id) :: paramNames procedure.params := by
    simp [Procedure.outerNames, isResult]
  rw [List.lookup_append, ← lookup_name_eq_none_iff]
  cases found : (namesAround around).lookup name with
  | some other =>
      have isLocal := declared.of_mem (List.mem_map_of_mem (f := Prod.snd) (mem_of_lookup found))
      simp only [Option.some_or, Option.some.injEq, reduceCtorEq, and_false, iff_false]
      rintro rfl
      exact isLocal.2 isResult
  | none =>
      rw [Option.none_or, outer, List.lookup_cons]
      by_cases same : name = "result"
      · simp [same]
      · simp only [beq_eq_false_iff_ne.mpr same, same, false_and, iff_false]
        intro found
        obtain ⟨param, member, bound⟩ :=
          List.mem_filterMap.mp (List.mem_reverse.mp (mem_of_lookup found))
        obtain ⟨other, isParam, named⟩ := Option.map_eq_some_iff.mp bound
        obtain ⟨-, rfl⟩ := Prod.mk.inj named
        exact apart (List.mem_map.mpr ⟨param, member, isParam⟩)

/-- A target counts as the implicit result when it is called like that, unless there is an implicit
result and something declared around hides it. -/
theorem Expr.isResult_iff {target : Expr}
    (named : ReturnsVisible (namesAround around ++ procedure.outerNames) (some target))
    (declared : DeclaredGiven procedure.IsLocal around)
    (apart : ∀ id, procedure.resultBinding = some id → some id ∉ procedure.params.map Param.binding) :
    target.isResult procedure.resultBinding = true ↔ target.IsNamedResult ∧
      (procedure.resultBinding.isSome = true → "result" ∉ (namesAround around).map Prod.fst) := by
  cases target with
  | var note name binding =>
      cases isResult : procedure.resultBinding with
      | none => simp [Expr.isResult, Expr.IsNamedResult]
      | some id =>
          have resolves : (namesAround around ++ procedure.outerNames).lookup name = some id ↔ _ :=
            Procedure.lookup_result_iff isResult declared (apart id isResult)
          have same : binding = (namesAround around ++ procedure.outerNames).lookup name := named
          cases binding with
          | some other =>
              rw [← same, Option.some.injEq] at resolves
              simp only [Expr.isResult, Expr.IsNamedResult, decide_eq_true_eq, resolves]
              simp +contextual
          | none =>
              have other : name ≠ "result" := fun isName => by
                have hidden : name ∉ (namesAround around).map Prod.fst := by
                  rw [← lookup_name_eq_none_iff]
                  exact (Option.or_eq_none_iff.mp (List.lookup_append.symm.trans same.symm)).1
                exact Option.some_ne_none id ((resolves.mpr ⟨isName, hidden⟩).symm.trans same.symm)
              simp [Expr.isResult, Expr.IsNamedResult, other]
  | _ => simp [Expr.isResult, Expr.IsNamedResult]

end Targets

section Places

variable {resultBinding : Option BindingId} {place : Place} {front : Stmt}

mutual

/-- The sites of a statement inside another one are among the sites of that. -/
theorem Stmt.sites_of_front (isFront : place.spot = .front front) {around : List Enclosing} : (statement : Stmt) →
    place ∈ statement.places around → front.sites resultBinding ⊆ statement.sites resultBinding
  | .block block, inside => Block.sites_of_front isFront block inside
  | .branch _ _ yes none, inside =>
      List.subset_append_of_subset_right _ (Block.sites_of_front isFront yes inside)
  | .branch _ _ yes (some no), inside =>
      (List.mem_append.mp inside).elim
        (fun ifYes => List.subset_append_of_subset_left _
          (List.subset_append_of_subset_right _ (Block.sites_of_front isFront yes ifYes)))
        (fun ifNo => List.subset_append_of_subset_right _ (Block.sites_of_front isFront no ifNo))
  | .loop _ _ body, inside => List.subset_append_of_subset_right _ (Block.sites_of_front isFront body inside)
  | .declare .., inside | .assign .., inside | .expr .., inside | .return .., inside | .break _, inside
  | .continue _, inside | .spawn .., inside => by simp [Stmt.places] at inside

/-- The sites of a statement inside a block are among the sites of the block. -/
theorem Block.sites_of_front (isFront : place.spot = .front front) {outer : List Enclosing} {role : BlockRole} :
    (block : Block) → place ∈ block.places outer role → front.sites resultBinding ⊆ block.sites resultBinding
  | .mk note statements, inside => by
      simp only [Block.places, List.mem_cons, List.mem_append, List.not_mem_nil, or_false] at inside
      rcases inside with rfl | inside | rfl
      · cases isFront
      · exact sitesOf_front isFront statements inside
      · cases isFront

/-- The sites of a statement among or inside statements are among the sites of these. -/
theorem sitesOf_front (isFront : place.spot = .front front) {own : Enclosing} {outer : List Enclosing} :
    (statements : List Stmt) → place ∈ placesIn own outer statements → front.sites resultBinding ⊆ sitesOf resultBinding statements
  | [], inside => by simp [placesIn] at inside
  | statement :: statements, inside => by
      simp only [placesIn, List.mem_cons, List.mem_append] at inside
      rcases inside with rfl | inside | later
      · obtain rfl := Spot.front.inj isFront
        exact List.subset_append_left _ _
      · exact List.subset_append_of_subset_left _ (Stmt.sites_of_front isFront statement inside)
      · exact List.subset_append_of_subset_right _ (sitesOf_front isFront statements later)

end

end Places

/-- Where expressions have distinct numbers, the value of an assignment stands at the site of results
just when its target counts as the implicit result. -/
theorem Procedure.site_of_assigned {procedure : Procedure} (distinct : (procedure.body.exprs.map Expr.id).Nodup)
    {place : Place} (inside : place ∈ procedure.places) {note : Note} {target value : Expr}
    (isFront : place.spot = .front (.assign note target value)) :
    procedure.sites.lookup value.id =
      some (if target.isResult procedure.resultBinding then .resultAssignment else .other) := by
  have keys := procedure.body.sites_ids procedure.resultBinding
  refine lookup_of_mem (keys ▸ distinct) (Block.sites_of_front isFront procedure.body inside ?_)
  exact List.mem_append_right _ (value.mem_sites _)

/-- In a procedure with a result of the given type, lexical scope gives a target the meaning of the
implicit result. -/
def Place.MeansResult (result : TypeDef) (place : Place) (target : Expr) : Prop :=
  result.kind ≠ .void ∧ target.IsNamedResult ∧ ¬ place.HidesResult

namespace BodyM

/-- The value of an assignment stands at the site of results just when its target means the implicit
result, or when the procedure gives no result and the target is called like one. -/
theorem assigned_at_result_iff {context : BodyContext} {proc : Surface.ProcDecl} {signature : Signature}
    {declarations : Declarations} {procedure : Procedure} {final : BodyState} {result : TypeDef}
    (run : lowerProcedure context proc signature { declarations := declarations } = .ok procedure final)
    (gives : declarations.table.get signature.result = .ok result) {place : Place}
    (inside : place ∈ procedure.places) {note : Note} {target value : Expr}
    (isFront : place.spot = .front (.assign note target value)) :
    ∃ site, procedure.sites.lookup value.id = some site ∧ (site = .resultAssignment ∨ site = .other) ∧
      (site = .resultAssignment ↔
        place.MeansResult result target ∨ result.kind = .void ∧ target.IsNamedResult) := by
  have named := lowerProcedure_named context run
  have lexical := Block.IsLexical.places (by simp [DeclaredGiven]) .body named.lexical place inside
  have decides := Expr.isResult_iff (lexical.front _ isFront) (lexical.before.mono fun id isGiven => isGiven.1)
    named.apart
  obtain ⟨-, body, start, numbered⟩ := lowerProcedure_boundFrom context run
  have distinct : (procedure.body.exprs.map Expr.id).Nodup := numbered ▸ (body.number_exprs start).distinct
  have hasResult : procedure.resultBinding.isSome = true ↔ result.kind ≠ .void := by
    obtain ⟨params, resultBinding, state, block, -, -, rfl, hasResult⟩ := lowerProcedure_enters context run
    exact hasResult result gives
  have means : target.isResult procedure.resultBinding = true ↔
      place.MeansResult result target ∨ result.kind = .void ∧ target.IsNamedResult := by
    rw [decides, hasResult, Place.MeansResult, Place.HidesResult]
    tauto
  have site := Procedure.site_of_assigned distinct inside isFront
  rw [← means]
  by_cases isResult : target.isResult procedure.resultBinding = true
  · rw [if_pos isResult] at site
    exact ⟨_, site, .inl rfl, iff_of_true rfl isResult⟩
  · rw [if_neg isResult] at site
    exact ⟨_, site, .inr rfl, iff_of_false nofun isResult⟩

/-- The local `result` is declared and then assigned to. -/
def shadowingBlock : Surface.Block :=
  let place : Position := ⟨1, 1⟩
  .mk place [
    .declare place "result" (some (.named place "Handle" [])) (some (.call place "make" [])) true,
    .assign place (.name place "result") (.call place "make" [])]

/-- The body of a procedure, whose result is told by the signature. -/
def lowerWithResult (result : TypeId) (body : Surface.Block) : BodyM Procedure :=
  lowerProcedure ⟨none, [], [("make", ⟨"make", [], 1, [], false, {}⟩)], 9⟩
    ⟨⟨1, 1⟩, "use", false, [], [], none, body⟩ ⟨"use", [], result, [], false, {}⟩

/-- A procedure whose implicit result is hidden by a local in a block, and assigned to behind that. -/
def lowerOpening : BodyM Procedure :=
  let place : Position := ⟨1, 1⟩
  lowerWithResult 1 (.mk place [
    .block place shadowingBlock,
    .assign place (.name place "result") (.call place "make" [])])

/-- What the procedure is lowered to. -/
def openingProcedure : Procedure :=
  (lowerOpening.result? { declarations := handleDeclarations }).getD ⟨{}, "", [], 2, .mk {} [], none⟩

theorem assigned_at_result_iff_opening :
    (∃ place ∈ openingProcedure.places, ∃ note target value, place.spot = .front (.assign note target value) ∧
      openingProcedure.sites.lookup value.id = some .resultAssignment) ∧
    ∃ place ∈ openingProcedure.places, ∃ note target value, place.spot = .front (.assign note target value) ∧
      target.IsNamedResult ∧ openingProcedure.sites.lookup value.id = some .other := by
  have run : lowerOpening { declarations := handleDeclarations } =
      .ok openingProcedure (lowerOpening.finish { declarations := handleDeclarations }) := rfl
  constructor
  · have behind : openingProcedure.places[6]? = some _ := rfl
    obtain ⟨site, found, -, means⟩ := assigned_at_result_iff run rfl (List.mem_of_getElem? behind) rfl
    refine ⟨_, List.mem_of_getElem? behind, _, _, _, rfl, ?_⟩
    rw [found, means.mpr (.inl ⟨by decide, rfl, by decide⟩)]
  · have hidden : openingProcedure.places[4]? = some _ := rfl
    obtain ⟨site, found, either, means⟩ := assigned_at_result_iff run rfl (List.mem_of_getElem? hidden) rfl
    refine ⟨_, List.mem_of_getElem? hidden, _, _, _, rfl, rfl, ?_⟩
    have other : site = .other := either.resolve_left fun isResult =>
      (means.mp isResult).elim (fun ⟨_, _, seen⟩ => seen (by decide)) fun ⟨isVoid, _⟩ => by cases isVoid
    rw [found, other]

/-- The value of an assignment stands at the site of results just when lexical scope gives its target the
meaning of the implicit result. -/
def ResultTargetsAreLexical : Prop :=
  ∀ {context : BodyContext} {proc : Surface.ProcDecl} {signature : Signature} {declarations : Declarations}
    {procedure : Procedure} {final : BodyState} {result : TypeDef},
    lowerProcedure context proc signature { declarations := declarations } = .ok procedure final →
    declarations.table.get signature.result = .ok result →
    ∀ place ∈ procedure.places, ∀ note target value, place.spot = .front (.assign note target value) →
      (procedure.sites.lookup value.id = some .resultAssignment ↔ place.MeansResult result target)

/-- A procedure without a result, which assigns to a local called like one. -/
def lowerKeeping : BodyM Procedure := lowerWithResult 2 shadowingBlock

/-- What the procedure is lowered to. -/
def keepingProcedure : Procedure :=
  (lowerKeeping.result? { declarations := handleDeclarations }).getD ⟨{}, "", [], 2, .mk {} [], none⟩

theorem not_resultTargetsAreLexical : ¬ ResultTargetsAreLexical := by
  intro lexical
  have run : lowerKeeping { declarations := handleDeclarations } =
      .ok keepingProcedure (lowerKeeping.finish { declarations := handleDeclarations }) := rfl
  have assigns : keepingProcedure.places[2]? = some _ := rfl
  have means := lexical run rfl _ (List.mem_of_getElem? assigns) _ _ _ rfl
  obtain ⟨givesResult, -, -⟩ := means.mp (by decide +kernel)
  exact givesResult rfl

end BodyM

end LifecycleHooks

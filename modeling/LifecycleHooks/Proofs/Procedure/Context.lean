import LifecycleHooks.Procedure.Context
import LifecycleHooks.Proofs.Lifting.Repetition
import LifecycleHooks.Proofs.Procedure.Sites
import LifecycleHooks.Proofs.Scope.Schedule

/-!
# What is reported about destructible values

Checking a block asks the resolver, in the order of the expressions, about the types of those
that are checked.  When it is answered, the diagnostics can be read off the resolver that is
left: one for each checked expression whose destruction runs a hook and whose site the policy
does not allow, in the order of the expressions.
-/

namespace LifecycleHooks

open Attempt ResolveM Resolver

section Reports

/-- The type that the resolver is asked about because of an expression, if any. -/
def ContextPolicy.question? (policy : ContextPolicy) (expr : Expr) : Option TypeId :=
  if expr.form ∈ policy.checked then expr.type else none

/-- The types that the resolver is asked about. -/
def ContextPolicy.questions (policy : ContextPolicy) (exprs : List Expr) : List TypeId :=
  exprs.filterMap policy.question?

/-- The site of an expression.  One that no site is known for stands at some other place. -/
def Sites.of (sites : Sites) (expr : Expr) : ContextSite := (sites.lookup expr.id).getD .other

/-- Whether an expression is checked, its destruction runs a hook, and it stands where such
values are not allowed. -/
def ContextPolicy.refuses (policy : ContextPolicy) (sites : Sites) (resolver : Resolver) (expr : Expr) : Bool :=
  (policy.question? expr).any resolver.runsHook && sites.of expr ∉ policy.allowed

/-- A diagnostic is about a destructible value at the site of an expression. -/
def Resolver.Reports (resolver : Resolver) (sites : Sites) (expr : Expr) (diagnostic : Diagnostic) : Prop :=
  diagnostic.code = some .destructibleContext ∧ diagnostic.span = expr.note.span ∧
    ∃ type, expr.type = some type ∧
      contextDiagnostic expr type (sites.of expr) resolver = .ok diagnostic resolver

end Reports

namespace ResolveM

variable {hooks : Registry} {fuel : Nat} {policy : ContextPolicy} {sites : Sites} {resolver final : Resolver}
  {expr : Expr}

section One

theorem contextDiagnostic_repeats (expr : Expr) (type : TypeId) (site : ContextSite) :
    (contextDiagnostic expr type site).Repeats Extends :=
  (ask_repeats (TypeTable.stable_spell type)).bind fun _ => repeats_pure _

theorem contextDiagnostic_reports {type : TypeId} {diagnostic : Diagnostic} (typed : expr.type = some type)
    (run : contextDiagnostic expr type (sites.of expr) resolver = .ok diagnostic final) :
    final = resolver ∧ resolver.Reports sites expr diagnostic := by
  obtain ⟨name, middle, spelled, made⟩ := bind_eq_ok.mp run
  obtain ⟨-, rfl⟩ := ask_eq_ok.mp spelled
  obtain ⟨rfl, rfl⟩ := EStateM.Result.ok.inj made
  exact ⟨rfl, rfl, rfl, type, typed, run⟩

theorem isDestructible_repeats (hooks : Registry) (fuel : Nat) (type : TypeId) :
    (isDestructible hooks fuel type).Repeats Extends :=
  (resolve_repeats hooks fuel type .destroy).bind fun _ => repeats_pure _

theorem isDestructible_staysIntact (hooks : Registry) (fuel : Nat) (type : TypeId) :
    (isDestructible hooks fuel type).Preserves StaysIntact :=
  ((intact_leadsQueries hooks).resolves fuel type .destroy).bind fun _ => leads_pure _

/-- What was answered about the destruction of a type is known from then on. -/
theorem isDestructible_knows {type : TypeId} {answer : Bool}
    (run : isDestructible hooks fuel type resolver = .ok answer final) :
    final.KnowsDestruction hooks type ∧ answer = final.runsHook type := by
  obtain ⟨operation, middle, resolved, answered⟩ := bind_eq_ok.mp run
  obtain ⟨rfl, rfl⟩ := EStateM.Result.ok.inj answered
  obtain ⟨knows, runs⟩ := resolve_knows resolved
  exact ⟨knows, runs.symm⟩

/-- What is found about an expression of a type of which it is known whether destroying
values of it runs a hook. -/
def reportRefused (policy : ContextPolicy) (sites : Sites) (expr : Expr) (type : TypeId) (runsHook : Bool) :
    ResolveM (Option Diagnostic) := do
  if runsHook && sites.of expr ∉ policy.allowed then
    return some (← contextDiagnostic expr type (sites.of expr))
  else
    return none

/-- A check asks about the type of the expression, if it is of a checked form, and reports it
if it is refused. -/
theorem checkExpr_eq (expr : Expr) :
    checkExpr hooks fuel policy sites expr =
      match policy.question? expr with
      | none => pure none
      | some type => isDestructible hooks fuel type >>= reportRefused policy sites expr type := by
  unfold checkExpr ContextPolicy.question?
  by_cases isChecked : expr.form ∈ policy.checked
  · simp only [isChecked, not_true_eq_false, if_false, if_true]
    cases expr.type with
    | none => rfl
    | some type =>
        refine bind_congr fun answer => ?_
        change (if answer = true then
            (if sites.of expr ∈ policy.allowed then pure none
              else do return some (← contextDiagnostic expr type (sites.of expr)))
          else pure none) = _
        by_cases allowed : sites.of expr ∈ policy.allowed <;> cases answer <;> simp [reportRefused, allowed]
  · simp only [isChecked, not_false_eq_true, if_true, if_false]

theorem reportRefused_repeats (type : TypeId) (runsHook : Bool) :
    (reportRefused policy sites expr type runsHook).Repeats Extends := by
  unfold reportRefused
  split
  · exact (contextDiagnostic_repeats expr type _).bind fun _ => repeats_pure _
  · exact repeats_pure _

theorem checkExpr_repeats (expr : Expr) : (checkExpr hooks fuel policy sites expr).Repeats Extends := by
  rw [checkExpr_eq]
  cases policy.question? expr with
  | none => exact repeats_pure _
  | some type => exact (isDestructible_repeats hooks fuel type).bind fun _ => reportRefused_repeats type _

/-- Reporting changes nothing, and cannot fail for an existing type. -/
theorem reportRefused_answers (intact : resolver.Intact) {type : TypeId} (has : resolver.table.Has type)
    (runsHook : Bool) :
    ∃ found, reportRefused policy sites expr type runsHook resolver = .ok found resolver := by
  obtain ⟨name, spelled⟩ := TypeTable.spell_answers intact.regular.toWellFormed intact.regular.paramsKnown has
  have asked : ask (·.spell type) resolver = .ok name resolver := ask_eq_ok.mpr ⟨spelled, rfl⟩
  unfold reportRefused contextDiagnostic
  split
  · rw [bind_assoc, bind_run_of_ok asked]
    exact ⟨_, rfl⟩
  · exact ⟨none, rfl⟩

/-- What is found about a single expression is the report on it, if it is refused. -/
theorem reportRefused_reports {type : TypeId} (asks : policy.question? expr = some type)
    {found : Option Diagnostic}
    (run : reportRefused policy sites expr type (resolver.runsHook type) resolver = .ok found final) :
    final = resolver ∧
      List.Forall₂ (resolver.Reports sites) ([expr].filter (policy.refuses sites resolver)) found.toList := by
  have typed : expr.type = some type := by
    unfold ContextPolicy.question? at asks
    split at asks
    · exact asks
    · cases asks
  have same : policy.refuses sites resolver expr =
      (resolver.runsHook type && sites.of expr ∉ policy.allowed) := by
    rw [ContextPolicy.refuses, asks, Option.any_some]
  unfold reportRefused at run
  split at run
  · rename_i refused
    obtain ⟨diagnostic, middle, made, ends⟩ := bind_eq_ok.mp run
    obtain ⟨rfl, rfl⟩ := EStateM.Result.ok.inj ends
    obtain ⟨left, reports⟩ := contextDiagnostic_reports typed made
    rw [List.filter_cons_of_pos (same.trans refused)]
    exact ⟨left, .cons reports .nil⟩
  · rename_i accepted
    obtain ⟨rfl, rfl⟩ := EStateM.Result.ok.inj run
    rw [List.filter_cons_of_neg (same ▸ accepted)]
    exact ⟨rfl, .nil⟩

/-- A check finds out about the type of the expression, and what it finds is the report on the
expression, if it is refused. -/
theorem checkExpr_reports {found : Option Diagnostic}
    (run : checkExpr hooks fuel policy sites expr resolver = .ok found final) :
    (∀ type ∈ policy.question? expr, final.KnowsDestruction hooks type) ∧
      List.Forall₂ (final.Reports sites) ([expr].filter (policy.refuses sites final)) found.toList := by
  rw [checkExpr_eq] at run
  cases asks : policy.question? expr with
  | none =>
      rw [asks] at run
      obtain ⟨rfl, rfl⟩ := EStateM.Result.ok.inj run
      simp [ContextPolicy.refuses, asks]
  | some type =>
      rw [asks] at run
      obtain ⟨answer, middle, asked, reported⟩ := bind_eq_ok.mp run
      obtain ⟨knows, rfl⟩ := isDestructible_knows asked
      obtain ⟨rfl, reports⟩ := reportRefused_reports asks reported
      exact ⟨by simpa using knows, reports⟩

/-- A check leaves what the question about the type of the expression leaves, and is answered
whenever that question is. -/
theorem checkExpr_answers (intact : resolver.Intact) (has : ∀ type ∈ policy.question? expr, resolver.table.Has type) :
    (∃ found, checkExpr hooks fuel policy sites expr resolver = .ok found final) ↔
      ∃ answers, (policy.question? expr).toList.mapM (isDestructible hooks fuel) resolver = .ok answers final := by
  rw [checkExpr_eq]
  cases asks : policy.question? expr with
  | none => simp [eq_comm]
  | some type =>
      have settles {answer : Bool} {middle : Resolver}
          (asked : isDestructible hooks fuel type resolver = .ok answer middle) :
          ∃ found, reportRefused policy sites expr type answer middle = .ok found middle := by
        obtain ⟨middleIntact, unfolds⟩ := (isDestructible_staysIntact hooks fuel type).of_ok asked intact
        exact reportRefused_answers middleIntact ((has type asks).extends_ unfolds.extends_) answer
      simp only [Option.toList_some, List.mapM_cons, List.mapM_nil]
      constructor
      · rintro ⟨found, run⟩
        obtain ⟨answer, middle, asked, rest⟩ := bind_eq_ok.mp run
        obtain ⟨_, same⟩ := settles asked
        obtain ⟨-, rfl⟩ := EStateM.Result.ok.inj (same.symm.trans rest)
        rw [bind_run_of_ok asked]
        exact ⟨[answer], rfl⟩
      · rintro ⟨answers, run⟩
        obtain ⟨answer, middle, asked, rest⟩ := bind_eq_ok.mp run
        obtain ⟨-, rfl⟩ := EStateM.Result.ok.inj rest
        obtain ⟨found, reported⟩ := settles asked
        exact ⟨found, by rw [bind_run_of_ok asked, reported]⟩

end One

section All

variable {exprs : List Expr}

/-- A list of expressions is checked whenever the questions about their types are answered,
and nothing else changes. -/
theorem checkExprs_answers (intact : resolver.Intact)
    (has : ∀ type ∈ policy.questions exprs, resolver.table.Has type) :
    (∃ found, exprs.mapM (checkExpr hooks fuel policy sites) resolver = .ok found final) ↔
      ∃ answers, (policy.questions exprs).mapM (isDestructible hooks fuel) resolver = .ok answers final := by
  induction exprs generalizing resolver with
  | nil => simp [ContextPolicy.questions, eq_comm]
  | cons expr rest ih =>
      have split : policy.questions (expr :: rest) = (policy.question? expr).toList ++ policy.questions rest := by
        cases asks : policy.question? expr <;> simp [ContextPolicy.questions, asks]
      rw [split, List.forall_mem_append] at has
      have here {middle : Resolver} :
          (∃ found, checkExpr hooks fuel policy sites expr resolver = .ok found middle) ↔
            ∃ answers, (policy.question? expr).toList.mapM (isDestructible hooks fuel) resolver =
              .ok answers middle :=
        checkExpr_answers intact fun type asks => has.1 type (Option.mem_toList.mpr asks)
      have behind {answers : List Bool} {middle : Resolver}
          (asked : (policy.question? expr).toList.mapM (isDestructible hooks fuel) resolver = .ok answers middle) :
          (∃ found, rest.mapM (checkExpr hooks fuel policy sites) middle = .ok found final) ↔
            ∃ answers, (policy.questions rest).mapM (isDestructible hooks fuel) middle = .ok answers final := by
        have stays : ((policy.question? expr).toList.mapM (isDestructible hooks fuel)).Preserves StaysIntact :=
          leads_mapM fun type _ => isDestructible_staysIntact hooks fuel type
        obtain ⟨middleIntact, unfolds⟩ := stays.of_ok asked intact
        exact ih middleIntact fun type member => (has.2 type member).extends_ unfolds.extends_
      rw [split, List.mapM_append, List.mapM_cons]
      simp only [bind_eq_ok]
      constructor
      · rintro ⟨_, found, middle, checked, others, last, rest, ends⟩
        obtain ⟨-, rfl⟩ := EStateM.Result.ok.inj ends
        obtain ⟨answers, asked⟩ := here.mp ⟨found, checked⟩
        obtain ⟨more, run⟩ := (behind asked).mp ⟨others, rest⟩
        exact ⟨answers ++ more, answers, middle, asked, more, last, run, rfl⟩
      · rintro ⟨_, answers, middle, asked, more, last, run, ends⟩
        obtain ⟨-, rfl⟩ := EStateM.Result.ok.inj ends
        obtain ⟨found, checked⟩ := here.mpr ⟨answers, asked⟩
        obtain ⟨others, rest⟩ := (behind asked).mpr ⟨more, run⟩
        exact ⟨found :: others, found, middle, checked, others, last, rest, rfl⟩

/-- What is found about a list of expressions are the reports on those that are refused. -/
theorem checkExprs_reports {found : List (Option Diagnostic)}
    (run : exprs.mapM (checkExpr hooks fuel policy sites) resolver = .ok found final) :
    List.Forall₂ (final.Reports sites) (exprs.filter (policy.refuses sites final)) (found.filterMap id) := by
  have each := mapM_each_again checkExpr_repeats run (Extends.refl final)
  clear run
  induction each with
  | nil => exact .nil
  | @cons expr diagnostic exprs found first _ ih =>
      change List.Forall₂ _ (([expr] ++ exprs).filter _) _
      rw [List.filter_append]
      have both := List.rel_append (checkExpr_reports first).2 ih
      cases diagnostic <;> exact both

/-- A block is checked by checking its expressions. -/
theorem checkBlock_eq_ok {block : Block} {found : List Diagnostic} :
    checkBlock hooks fuel policy sites block resolver = .ok found final ↔
      ∃ each, block.exprs.mapM (checkExpr hooks fuel policy sites) resolver = .ok each final ∧
        found = each.filterMap id := by
  rw [checkBlock, filterMapM_eq, bind_eq_ok]
  simp [eq_comm]

/-- Only types of expressions are asked about. -/
theorem questions_has (known : ∀ expr ∈ exprs, ∀ type ∈ expr.type, resolver.table.Has type) :
    ∀ type ∈ policy.questions exprs, resolver.table.Has type := by
  intro type member
  obtain ⟨expr, inside, asks⟩ := List.mem_filterMap.mp member
  refine known expr inside type ?_
  unfold ContextPolicy.question? at asks
  split at asks
  · exact asks
  · cases asks

/-- What was answered about the destruction of types is known in the end. -/
theorem isDestructible_reads {types : List TypeId} {answers : List Bool}
    (run : types.mapM (isDestructible hooks fuel) resolver = .ok answers final) :
    answers = types.map final.runsHook ∧ ∀ type ∈ types, final.KnowsDestruction hooks type :=
  mapM_reads (fun later type => later.KnowsDestruction hooks type) Resolver.runsHook
    (fun type => (isDestructible_repeats hooks fuel type).preserves)
    (fun _ _ _ _ asked => isDestructible_knows asked)
    (fun _ _ _ knows extends_ => knows.extends_ extends_) run

end All

/-- Both walks over a block visit the same expressions in the same order, and where no two
expressions have the same number, only whole values of declarations, returns and assignments to
the implicit result have sites of their own.  Checking the block asks about the types of the
expressions of checked forms, is answered whenever the resolver answers that, and finds one
diagnostic for each expression that is checked, destructible and at a site that the policy does
not allow, in the order of the expressions. -/
theorem misplaced_values_reported {block : Block} {resultBinding : Option BindingId}
    (distinct : (block.exprs.map Expr.id).Nodup) (serving : Serving hooks resolver)
    (known : ∀ expr ∈ block.exprs, ∀ type ∈ expr.type, resolver.table.Has type) :
    let sites := block.sites resultBinding
    sites.map Prod.fst = block.exprs.map Expr.id ∧
      (∀ expr ∈ block.exprs, ∃ site, sites.lookup expr.id = some site ∧
        ∀ own, block.ValueAt resultBinding own expr ↔ site = own ∧ site ≠ .other) ∧
      ∀ final,
        ((∃ found, checkBlock hooks fuel policy sites block resolver = .ok found final) ↔
          (policy.questions block.exprs).mapM (isDestructible hooks fuel) resolver =
            .ok ((policy.questions block.exprs).map final.runsHook) final) ∧
        ∀ found, checkBlock hooks fuel policy sites block resolver = .ok found final →
          List.Forall₂ (final.Reports sites) (block.exprs.filter (policy.refuses sites final)) found := by
  have has : ∀ type ∈ policy.questions block.exprs, resolver.table.Has type := questions_has known
  refine ⟨block.sites_ids resultBinding, fun expr member => block.lookup_sites distinct member, fun final =>
    ⟨?_, fun found run => ?_⟩⟩
  · constructor
    · rintro ⟨found, run⟩
      obtain ⟨each, answered, rfl⟩ := checkBlock_eq_ok.mp run
      obtain ⟨answers, asked⟩ := (checkExprs_answers serving.intact has).mp ⟨each, answered⟩
      rw [asked, (isDestructible_reads asked).1]
    · intro asked
      obtain ⟨each, answered⟩ := (checkExprs_answers serving.intact has).mpr ⟨_, asked⟩
      exact ⟨_, checkBlock_eq_ok.mpr ⟨each, answered, rfl⟩⟩
  · obtain ⟨each, answered, rfl⟩ := checkBlock_eq_ok.mp run
    exact checkExprs_reports answered

/-- Handles and sequences of handles. -/
def openedTable : TypeTable :=
  TypeTable.after {} [.object "Handle" [] {}, .wrap .seq 1, .int]

/-- The hook that closes a handle. -/
def openedHooks : Registry where
  entries := [{ kind := .destroy, target := 1, params := [], result := 3, impl := "close" }]
  frozen := true

/-- A call that gives a value of a type. -/
def calling (id : NodeId) (type : TypeId) (callee : String) (args : List Expr) : Expr :=
  .call ⟨⟨id, {}⟩, some type⟩ callee args

/-- A block that keeps a handle, hands one to a call and one to a task, and returns one. -/
def openedBlock : Block :=
  let note (id : NodeId) : Note := ⟨id, {}⟩
  .mk (note 1) [
    .declare (note 2) "kept" (some (calling 3 1 "open" [])) none false (some 1),
    .assign (note 4) (.var ⟨note 5, some 2⟩ "result" none) (calling 6 2 "several" [calling 7 1 "open" []]),
    .spawn (note 8) ⟨note 9, none⟩ "close" [calling 10 1 "open" []],
    .branch (note 11) (calling 12 3 "ready" []) (.mk (note 13) [
      .return (note 14) (some (calling 15 1 "open" []))]) none]

theorem openedTable_built : openedTable.Built :=
  TypeTable.Built.empty.after (by decide +kernel)

theorem misplaced_values_reported_opened :
    (openedBlock.exprs.map Expr.id).Nodup ∧ ∃ found final,
      checkBlock openedHooks 9 .standard (openedBlock.sites none) openedBlock { table := openedTable } =
        .ok found final ∧
      (openedBlock.exprs.filter (ContextPolicy.standard.refuses (openedBlock.sites none) final)).map Expr.id =
        [7, 10] ∧
      List.Forall₂ (final.Reports (openedBlock.sites none))
        (openedBlock.exprs.filter (ContextPolicy.standard.refuses (openedBlock.sites none) final)) found := by
  have distinct : (openedBlock.exprs.map Expr.id).Nodup := by decide +kernel
  have serving : Serving openedHooks { table := openedTable } := .start openedTable_built
  have known : ∀ expr ∈ openedBlock.exprs, ∀ type ∈ expr.type, openedTable.Has type := by
    have each : openedBlock.exprs.all (fun expr => expr.type.all fun type => (openedTable.get? type).isSome) = true := by
      decide +kernel
    intro expr member type isType
    have typed := List.all_eq_true.mp each expr member
    rw [Option.mem_def.mp isType] at typed
    exact typed
  obtain ⟨-, -, reported⟩ :=
    @misplaced_values_reported openedHooks 9 .standard _ openedBlock none distinct serving known
  have asked : (checkBlock openedHooks 9 .standard (openedBlock.sites none) openedBlock).result?
      { table := openedTable } ≠ none := by decide +kernel
  obtain ⟨found, answered⟩ := Option.ne_none_iff_exists'.mp asked
  have run := run_of_result? answered
  exact ⟨distinct, found, _, run, by decide +kernel, (reported _).2 found run⟩

end ResolveM
end LifecycleHooks

import LifecycleHooks.Proofs.Procedure.Context
import LifecycleHooks.Proofs.Program.ComputedTypes
import LifecycleHooks.Proofs.Program.ScheduleReports

/-!
# Side tables

Beside a lowered procedure stand two tables: the types of its expressions by the numbers of
their nodes, and the types of its bindings.  Neither leaves anything out.  Every node has a
number of its own, so every expression has its entry, with the type that was computed when it
was lowered; and every parameter, the implicit result and every declaration has a binding of
its own with an entry.  So no pass comes upon an expression or a declaration without a type.
-/

namespace LifecycleHooks

open Attempt BodyState

section Tables

/-- The bindings of a procedure, each with the type that is told where it is given: those of
its parameters, that of its implicit result, and those of its declarations. -/
def Procedure.bindings (procedure : Procedure) : List (Option BindingId × Option TypeId) :=
  (procedure.params.map fun param => (param.binding, some param.type)) ++
    (procedure.resultBinding.toList.map fun id => (some id, some procedure.result)) ++
    bindingsAmong procedure.body.nodes

/-- The types of the expressions of a procedure, by the numbers of their nodes. -/
def LoweredProcedure.exprTypes (lowered : LoweredProcedure) : List (NodeId × TypeId) :=
  (exprsAmong lowered.procedure.nodes).filterMap fun expr => expr.type.map fun type => (expr.id, type)

/-- An entry is that of a binding, and has the type that is told of it, if one is told. -/
def Tabled (told : Option BindingId × Option TypeId) (entry : BindingId × TypeId) : Prop :=
  told.1 = some entry.1 ∧ ∀ type, told.2 = some type → entry.2 = type

/-- The tables of a procedure leave nothing out, where the types that are computed for its
expressions are listed. -/
structure LoweredProcedure.IsComplete (lowered : LoweredProcedure) (computed : List (Option TypeId)) : Prop where
  /-- The nodes count from one. -/
  numbered : lowered.procedure.nodes.map Node.id =
    (List.range lowered.procedure.nodes.length).map fun position : Nat => 1 + (position : Int)
  /-- Every expression has an entry with the type that was computed for it. -/
  typed : (exprsAmong lowered.procedure.nodes).map (fun expr => lowered.exprTypes.lookup expr.id) = computed
  known : none ∉ computed
  /-- The entries for bindings are those of the parameters, the result and the declarations. -/
  bound : List.Forall₂ Tabled lowered.procedure.bindings lowered.bindingTypes
  distinct : (lowered.bindingTypes.map Prod.fst).Nodup

/-- The keys of a table of types are numbers of expressions. -/
theorem typeKeys_sublist (exprs : List Expr) :
    ((exprs.filterMap fun expr => expr.type.map fun type => (expr.id, type)).map Prod.fst).Sublist (exprs.map Expr.id) := by
  induction exprs with
  | nil => exact List.Sublist.refl []
  | cons expr exprs ih =>
      cases typed : expr.type with
      | none => simpa [typed] using ih.cons expr.id
      | some type => simpa [typed] using ih.cons_cons expr.id

theorem lookup_type {exprs : List Expr} (distinct : (exprs.map Expr.id).Nodup) {expr : Expr} (member : expr ∈ exprs)
    (known : expr.type.isSome) :
    (exprs.filterMap fun expr => expr.type.map fun type => (expr.id, type)).lookup expr.id = expr.type := by
  obtain ⟨type, typed⟩ := Option.isSome_iff_exists.mp known
  rw [typed]
  refine lookup_of_mem (distinct.sublist (typeKeys_sublist exprs)) ?_
  exact List.mem_filterMap.mpr ⟨expr, member, by rw [typed, Option.map_some]⟩

/-- Each binding is found in a table that has an entry for it. -/
theorem lookup_of_tabled {bindings : List (Option BindingId × Option TypeId)} {entries : BindingTypes}
    (tabled : List.Forall₂ Tabled bindings entries) (distinct : (entries.map Prod.fst).Nodup)
    {told : Option BindingId × Option TypeId} (member : told ∈ bindings) :
    ∃ id found, told.1 = some id ∧ entries.lookup id = some found ∧ ∀ type, told.2 = some type → found = type := by
  have isTabled : ∃ entry ∈ entries, Tabled told entry := by
    clear distinct
    induction tabled with
    | nil => cases member
    | @cons first entry bindings entries here _ ih =>
        rcases List.mem_cons.mp member with rfl | behind
        · exact ⟨entry, List.mem_cons_self, here⟩
        · obtain ⟨entry, inside, tabled⟩ := ih behind
          exact ⟨entry, List.mem_cons_of_mem _ inside, tabled⟩
  obtain ⟨entry, inside, bound, typed⟩ := isTabled
  exact ⟨entry.1, entry.2, bound, lookup_of_mem distinct inside, typed⟩

end Tables

section Bindings

/-- What is bound between two states are the given bindings, under numbers that are new. -/
def BodyState.Enrolls (state later : BodyState) (bindings : List (Option BindingId × Option TypeId)) : Prop :=
  ∃ more, later.bindingTypes = state.bindingTypes ++ more ∧ List.Forall₂ Tabled bindings more ∧
    Within state.nextBinding later.nextBinding (more.map Prod.fst)

namespace BodyState

theorem enrolls_nil (state : BodyState) : state.Enrolls state [] :=
  ⟨[], (List.append_nil _).symm, .nil, .nil (Int.le_refl _)⟩

theorem Enrolls.append {state middle later : BodyState} {first second : List (Option BindingId × Option TypeId)}
    (before : state.Enrolls middle first) (behind : middle.Enrolls later second) :
    state.Enrolls later (first ++ second) := by
  obtain ⟨more, types, each, within⟩ := before
  obtain ⟨others, finalTypes, rest, further⟩ := behind
  refine ⟨more ++ others, by rw [finalTypes, types, List.append_assoc], List.rel_append each rest, ?_⟩
  rw [List.map_append]
  exact within.append further

/-- Lowering enrolls the declarations of what it gives. -/
theorem Lowers.enrolls {inLoop : Bool} {state later : BodyState} {fragment : Fragment}
    (lowers : Lowers inLoop state later fragment) : state.Enrolls later (bindingsAmong fragment.nodes) := by
  obtain ⟨more, types, each⟩ := lowers.records
  have keys : List.Forall₂ (· = ·) (fragment.declarations.map Prod.fst) (more.map Prod.fst) := by
    rw [List.forall₂_map_left_iff, List.forall₂_map_right_iff]
    exact each.imp fun _ _ recorded => recorded.1.symm
  rw [List.forall₂_eq_eq_eq] at keys
  refine ⟨more, types, ?_, keys ▸ lowers.binds.declarations_within⟩
  rw [lowers.binds.bindings_among, List.forall₂_map_left_iff]
  exact each.imp fun _ _ recorded => ⟨congrArg some recorded.1.symm, recorded.2⟩

end BodyState

namespace BodyM

variable {context : BodyContext}

theorem Bound.enrolls {name : String} {type : TypeId} {state later : BodyState} (bound : Bound name type state later) :
    state.Enrolls later [(some state.nextBinding, some type)] := by
  refine ⟨_, bound.types, .cons ⟨rfl, fun other told => Option.some.inj told⟩ .nil, ?_⟩
  rw [bound.next]
  exact .single _

theorem lowerParams_enrolls (members : List (Surface.Member × TypeId)) {state later : BodyState} {params : List Param}
    (run : lowerParams context members state = .ok params later) :
    state.Enrolls later (params.map fun param => (param.binding, some param.type)) := by
  induction members generalizing state params with
  | nil =>
      obtain ⟨rfl, rfl⟩ := EStateM.Result.ok.inj run
      exact state.enrolls_nil
  | cons member members ih =>
      obtain ⟨id, middle, bindRun, run⟩ := bind_eq_ok.mp run
      obtain ⟨rest, last, restRun, run⟩ := bind_eq_ok.mp run
      obtain ⟨rfl, rfl⟩ := EStateM.Result.ok.inj run
      obtain ⟨rfl, bound⟩ := bind_bound bindRun
      exact bound.enrolls.append (ih restRun)

/-- Bind the parameters of a procedure, and then its implicit result, if it gives one. -/
def openProcedure (context : BodyContext) (proc : Surface.ProcDecl) (signature : Signature) :
    BodyM (List Param × Option BindingId) := do
  let params ← lowerParams context (proc.params.zip signature.params)
  let resultBinding ←
    if (← ask (·.get signature.result)).kind = .void then
      pure none
    else
      some <$> bind "result" signature.result
  return (params, resultBinding)

/-- The types that are computed for the expressions of a procedure: those of its body, which
begins where the parameters and the result are bound. -/
def procTypes (context : BodyContext) (proc : Surface.ProcDecl) (signature : Signature)
    (declarations : Declarations) : List (Option TypeId) :=
  blockTypes context false proc.body ((openProcedure context proc signature).finish { declarations := declarations })

/-- A procedure is lowered by opening it and lowering its body. -/
theorem lowerProcedure_opens {proc : Surface.ProcDecl} {signature : Signature} {state final : BodyState}
    {procedure : Procedure} (run : lowerProcedure context proc signature state = .ok procedure final) :
    ∃ params resultBinding opened body, openProcedure context proc signature state = .ok (params, resultBinding) opened ∧
      lowerBlock context false proc.body opened = .ok body final ∧
      procedure = (Procedure.number
        ⟨noteAt context proc.place, proc.name, params, signature.result, body, resultBinding⟩ 1).1 := by
  have opens : lowerProcedure context proc signature = openProcedure context proc signature >>= fun opened => do
      let body ← lowerBlock context false proc.body
      return (Procedure.number
        ⟨noteAt context proc.place, proc.name, opened.1, signature.result, body, opened.2⟩ 1).1 := by
    simp only [lowerProcedure, openProcedure, bind_assoc, pure_bind]
    refine bind_congr fun params => bind_congr fun result => ?_
    split <;> simp
  rw [opens] at run
  obtain ⟨⟨params, resultBinding⟩, opened, opening, run⟩ := bind_eq_ok.mp run
  obtain ⟨body, last, bodyRun, run⟩ := bind_eq_ok.mp run
  obtain ⟨rfl, rfl⟩ := EStateM.Result.ok.inj run
  exact ⟨params, resultBinding, opened, body, opening, bodyRun, rfl⟩

theorem openProcedure_enrolls {proc : Surface.ProcDecl} {signature : Signature} {state opened : BodyState}
    {params : List Param} {resultBinding : Option BindingId}
    (run : openProcedure context proc signature state = .ok (params, resultBinding) opened) :
    state.Enrolls opened ((params.map fun param => (param.binding, some param.type)) ++
      resultBinding.toList.map fun id => (some id, some signature.result)) := by
  obtain ⟨bound, second, paramsRun, run⟩ := bind_eq_ok.mp run
  have withParams := lowerParams_enrolls _ paramsRun
  obtain ⟨result, third, asked, run⟩ := bind_eq_ok.mp run
  obtain rfl : second = third := by
    obtain ⟨_, _, got, given⟩ := bind_eq_ok.mp asked
    obtain ⟨rfl, rfl⟩ := EStateM.Result.ok.inj got
    exact (ofExcept_eq_ok.mp given).2.symm
  split at run
  · obtain ⟨_, _, chosen, run⟩ := bind_eq_ok.mp run
    obtain ⟨rfl, rfl⟩ := EStateM.Result.ok.inj chosen
    obtain ⟨same, rfl⟩ := EStateM.Result.ok.inj run
    obtain ⟨rfl, rfl⟩ := Prod.mk.inj same
    exact withParams.append (enrolls_nil _)
  · obtain ⟨_, _, chosen, run⟩ := bind_eq_ok.mp run
    rw [map_eq_pure_bind] at chosen
    obtain ⟨id, fourth, bindRun, chosen⟩ := bind_eq_ok.mp chosen
    obtain ⟨rfl, rfl⟩ := EStateM.Result.ok.inj chosen
    obtain ⟨same, rfl⟩ := EStateM.Result.ok.inj run
    obtain ⟨rfl, rfl⟩ := Prod.mk.inj same
    obtain ⟨rfl, bound⟩ := bind_bound bindRun
    exact withParams.append bound.enrolls

end BodyM
end Bindings

section Complete

variable {lowered : LoweredProcedure} {context : BodyContext} {proc : Surface.ProcDecl} {declarations : Declarations}

/-- The tables of a lowered procedure leave nothing out. -/
theorem LoweredProcedure.LoweredFrom.isComplete (isFrom : lowered.LoweredFrom context proc declarations) :
    lowered.IsComplete (BodyM.procTypes context proc lowered.signature declarations) := by
  obtain ⟨final, run, types⟩ := isFrom
  obtain ⟨params, resultBinding, opened, body, opening, bodyRun, isNumbered⟩ := BodyM.lowerProcedure_opens run
  let plain : Procedure :=
    ⟨BodyM.noteAt context proc.place, proc.name, params, lowered.signature.result, body, resultBinding⟩
  have numbers : Renumbers 1 (plain.number 1).2 plain.nodes lowered.procedure.nodes :=
    isNumbered ▸ plain.number_nodes 1
  have ids := numbers.counts.eq_range
  rw [List.length_map] at ids
  -- The types on the nodes are those of the unnumbered body.
  have carries := BodyM.lowerBlock_carries context false proc.body bodyRun
  have told : (exprsAmong lowered.procedure.nodes).map Expr.type =
      BodyM.procTypes context proc lowered.signature declarations := by
    rw [numbers.types, plain.exprsAmong_nodes, carries.told, BodyM.procTypes, finish_of_ok opening]
  have known : none ∉ BodyM.procTypes context proc lowered.signature declarations := by
    rw [BodyM.procTypes, finish_of_ok opening, ← carries.told]
    intro member
    obtain ⟨expr, inside, untyped⟩ := List.mem_map.mp member
    exact absurd (carries.known expr inside) (by simp [untyped])
  have distinct : ((exprsAmong lowered.procedure.nodes).map Expr.id).Nodup :=
    numbers.counts.within.distinct.sublist (exprsAmong_ids _)
  have bindings : lowered.procedure.bindings = (params.map fun param => (param.binding, some param.type)) ++
      (resultBinding.toList.map fun id => (some id, some lowered.signature.result)) ++ bindingsAmong body.nodes := by
    have ofBody := (body.number_nodes (numberParams params (1 + 1)).2).bindings
    have ofParams := (numberParams_nodes params (1 + 1)).bindings
    rw [bindingsAmong_params, bindingsAmong_params] at ofParams
    rw [isNumbered, Procedure.bindings, ← ofBody, ← ofParams]
    rfl
  obtain ⟨more, entered, tabled, within⟩ := (BodyM.openProcedure_enrolls opening).append
    (BodyM.lowerBlock_lowers context false proc.body false bodyRun).enrolls
  rw [List.nil_append, types] at entered
  refine ⟨ids, ?_, known, ?_, ?_⟩
  · rw [← told]
    refine List.map_congr_left fun expr member => lookup_type distinct member ?_
    rw [Option.isSome_iff_ne_none]
    exact fun untyped => known (told ▸ List.mem_map.mpr ⟨expr, member, untyped⟩)
  · rw [bindings, entered]
    exact tabled
  · rw [entered]
    exact within.distinct

end Complete

/-- No pass over a procedure comes upon something without a type. -/
structure LoweredProcedure.SkipsNothing (lowered : LoweredProcedure) : Prop where
  /-- The expressions of the body, and the calls that are handed to tasks, have entries. -/
  found : ∀ expr ∈ lowered.procedure.body.exprs ++ callsAmong lowered.procedure.nodes,
    ∃ type, lowered.exprTypes.lookup expr.id = some type ∧ expr.type = some type
  /-- Every expression of a checked form is checked. -/
  checked : ∀ hooks fuel (policy : ContextPolicy) sites, ∀ expr ∈ lowered.procedure.body.exprs,
    expr.form ∈ policy.checked → ∃ type, lowered.exprTypes.lookup expr.id = some type ∧
      ResolveM.checkExpr hooks fuel policy sites expr =
        ResolveM.isDestructible hooks fuel type >>= ResolveM.reportRefused policy sites expr type
  /-- Every argument of every spawn is handed over. -/
  handed : ∀ hooks fuel resolver handoffs later,
    ResolveM.handOffBlock hooks fuel lowered.procedure.body resolver = .ok handoffs later →
      (handoffs.map fun handoff => (handoff.spawn, handoff.callee, handoff.index, some handoff.type)) =
        lowered.procedure.body.spawns.flatMap fun spawn => spawn.args.zipIdx.map fun (arg, index) =>
          (spawn.note.id, spawn.callee, index, lowered.exprTypes.lookup arg.id)
  /-- Every declaration declares a local. -/
  declared : ∀ note name value type mutability binding,
    .statement (.declare note name value type mutability binding) ∈ lowered.procedure.body.nodes →
      ∃ id found, binding = some id ∧ lowered.bindingTypes.lookup id = some found ∧
        ∀ next order, Walk.ofDeclaration lowered.bindingTypes next order note name type binding =
          { locals := [⟨id, name, found, order, note.id, note.span⟩], next := next }

namespace LoweredProcedure.IsComplete

variable {lowered : LoweredProcedure} {computed : List (Option TypeId)} (complete : lowered.IsComplete computed)

include complete

/-- What is found for an expression is its type. -/
theorem found {expr : Expr} (member : expr ∈ exprsAmong lowered.procedure.nodes) :
    ∃ type, lowered.exprTypes.lookup expr.id = some type ∧ expr.type = some type := by
  have listed : lowered.exprTypes.lookup expr.id ∈ computed :=
    complete.typed ▸ List.mem_map_of_mem (f := fun expr : Expr => lowered.exprTypes.lookup expr.id) member
  obtain ⟨type, found⟩ := Option.ne_none_iff_exists'.mp fun none => complete.known (none ▸ listed)
  obtain ⟨other, inside, entry⟩ := List.mem_filterMap.mp (mem_of_lookup found)
  obtain ⟨told, typed, same⟩ := Option.map_eq_some_iff.mp entry
  obtain ⟨ids, rfl⟩ := Prod.mk.inj same
  -- No other expression has the same number.
  have distinct : ((exprsAmong lowered.procedure.nodes).map Expr.id).Nodup := by
    refine List.Nodup.sublist (exprsAmong_ids _) ?_
    rw [complete.numbered]
    exact List.nodup_range.map fun first second same => by simpa using same
  obtain rfl : other = expr := List.inj_on_of_nodup_map distinct inside member ids
  exact ⟨told, found, typed⟩

theorem body_found {expr : Expr} (member : expr ∈ lowered.procedure.body.exprs) :
    ∃ type, lowered.exprTypes.lookup expr.id = some type ∧ expr.type = some type := by
  refine complete.found ?_
  rw [lowered.procedure.exprsAmong_nodes]
  exact lowered.procedure.body.exprs_sublist.subset member

/-- All arguments of a spawn are handed over, each with the type in the table. -/
theorem handed_eq {spawn : Spawn} (member : spawn ∈ lowered.procedure.body.spawns) :
    (spawn.handed.map fun given => (given.1, given.2.1, given.2.2.1, some given.2.2.2)) =
      spawn.args.zipIdx.map fun (arg, index) =>
        (spawn.note.id, spawn.callee, index, lowered.exprTypes.lookup arg.id) := by
  rw [Spawn.handed, List.map_filterMap, ← List.filterMap_eq_map]
  refine List.filterMap_congr fun entry isArg => ?_
  have inside := lowered.procedure.body.args_subset_exprs spawn member (List.fst_mem_of_mem_zipIdx isArg)
  obtain ⟨type, found, typed⟩ := complete.body_found inside
  simp [typed, found]

/-- So no pass skips anything. -/
theorem skipsNothing : lowered.SkipsNothing where
  found expr member := by
    rcases List.mem_append.mp member with inBody | isCall
    · exact complete.body_found inBody
    · exact complete.found (lowered.procedure.calls_subset isCall)
  checked hooks fuel policy sites expr member isChecked := by
    obtain ⟨type, found, typed⟩ := complete.body_found member
    refine ⟨type, found, ?_⟩
    rw [ResolveM.checkExpr_eq, ContextPolicy.question?, if_pos isChecked, typed]
  handed hooks fuel resolver handoffs later run := by
    have given := ResolveM.handOffBlock_given run
    have each := congrArg (List.map fun given => (given.1, given.2.1, given.2.2.1, some given.2.2.2)) given
    rw [List.map_map, List.map_flatMap] at each
    exact each.trans (List.flatMap_congr fun spawn member => complete.handed_eq member)
  declared note name value type mutability binding member := by
    have told : (binding, type.or (value.bind Expr.type)) ∈ lowered.procedure.bindings :=
      List.mem_append_right _ (List.mem_filterMap.mpr ⟨_, member, rfl⟩)
    obtain ⟨id, found, rfl, known, -⟩ := lookup_of_tabled complete.bound complete.distinct told
    exact ⟨id, found, rfl, known, fun next order =>
      Walk.ofDeclaration_typed known next order note name type⟩

end LoweredProcedure.IsComplete

/-- The tables of every procedure that a program is lowered to leave nothing out: its nodes count
from one, each expression has an entry with the type that was computed when it was lowered, and
each parameter, implicit result and declaration has an entry under a binding of its own.  So
every expression of a checked form is checked, every argument of a spawn is handed over, and
every declaration declares a local. -/
theorem LoweredProgram.tables_complete {file : Option String} {fuel : Nat} {source : Surface.Program}
    {program : LoweredProgram} (run : ofProgram file fuel source = .ok program) :
    ∀ lowered ∈ program.procedures, ∃ proc ∈ source.procs, ∃ signatures declarations,
      let context : BodyContext :=
        ⟨file, TypeVars.of proc.typeParams lowered.signature.typeVars, signatures, fuel⟩
      lowered.LoweredFrom context proc declarations ∧
        lowered.IsComplete (BodyM.procTypes context proc lowered.signature declarations) ∧ lowered.SkipsNothing := by
  intro lowered member
  obtain ⟨proc, inside, signatures, declarations, isFrom⟩ := loweredFrom run lowered member
  have complete := isFrom.isComplete
  exact ⟨proc, inside, signatures, declarations, isFrom, complete, complete.skipsNothing⟩

/-- A `break` that is left out, a declaration without a spelled type, and a spawn. -/
def workingProgram : Surface.Program :=
  { types := [.object ⟨⟨1, 1⟩, "A", [], none, [⟨⟨1, 19⟩, "n", .named ⟨1, 22⟩ "Int" []⟩]⟩]
    procs := [
      ⟨⟨2, 1⟩, "work", false, [], [⟨⟨2, 11⟩, "a", .named ⟨2, 14⟩ "A" []⟩], some (.named ⟨2, 18⟩ "Int" []),
        .mk ⟨2, 22⟩ [
          .break ⟨3, 3⟩,
          .declare ⟨4, 3⟩ "m" none (some (.field ⟨4, 12⟩ (.name ⟨4, 11⟩ "a") "n")) true,
          .spawn ⟨5, 3⟩ (.call ⟨5, 9⟩ "work" [.name ⟨5, 14⟩ "a"])]⟩] }

theorem LoweredProgram.tables_complete_working :
    ∃ program, ofProgram none 9 workingProgram = .ok program ∧
      (program.procedures.map fun lowered => (lowered.exprTypes, lowered.bindingTypes)) =
        [([(5, 1), (6, 4), (8, 1), (9, 4)], [(1, 4), (2, 1), (3, 1)])] ∧
      ∀ lowered ∈ program.procedures, lowered.SkipsNothing := by
  have lowers : (ofProgram none 9 workingProgram).toOption.map (fun program =>
      program.procedures.map fun lowered => (lowered.exprTypes, lowered.bindingTypes)) =
        some [([(5, 1), (6, 4), (8, 1), (9, 4)], [(1, 4), (2, 1), (3, 1)])] := by decide +kernel
  cases run : ofProgram none 9 workingProgram with
  | error fault =>
      rw [run] at lowers
      cases lowers
  | ok program =>
      rw [run] at lowers
      refine ⟨program, rfl, Option.some.inj lowers, fun lowered member => ?_⟩
      obtain ⟨_, _, _, _, _, _, skipsNothing⟩ := tables_complete run lowered member
      exact skipsNothing

end LifecycleHooks

import LifecycleHooks.Proofs.Program.Declaring
import LifecycleHooks.Proofs.Types.Renaming

/-!
# What declarations come to

A spelled type comes to the same however many ids were handed out before it: what it is called,
what is made on the way and what is reported depend only on what the declared names are called.
An account tells these three.  Whatever the table holds, a spelling and the body of an object
are resolved as their accounts say.
-/

namespace LifecycleHooks

open Attempt

/-- What names stand for.  Of two entries with the same name the first one counts. -/
abbrev Roster := List (String × Symbol)

/-- The type parameters of a symbol, by name.  Of two with the same name the later one counts,
so it stands first. -/
def Symbol.typeVars (symbol : Symbol) : Roster := (symbol.params.map fun param => (param.name, param)).reverse

/-- A result with what is made and what is reported on the way to it. -/
structure Account (Result : Type) where
  result : Result
  made : List Meaning := []
  said : List Diagnostic := []

/-- What an object is called. -/
def Surface.ObjectDecl.symbol (file : Option String) (decl : Surface.ObjectDecl) : Symbol :=
  .object decl.name decl.typeParams (decl.place.toSpan file)

/-- What a distinct type is called. -/
def Surface.DistinctDecl.symbol (file : Option String) (decl : Surface.DistinctDecl) : Symbol :=
  .distinct decl.name (decl.place.toSpan file)

namespace Account

instance : Monad Account where
  pure result := { result := result }
  bind account next :=
    ⟨(next account.result).result, account.made ++ (next account.result).made,
      account.said ++ (next account.result).said⟩

theorem pure_eq {Result : Type} (result : Result) : (pure result : Account Result) = ⟨result, [], []⟩ := rfl

theorem bind_eq {First Second : Type} (account : Account First) (next : First → Account Second) :
    (account >>= next) = ⟨(next account.result).result, account.made ++ (next account.result).made,
      account.said ++ (next account.result).said⟩ := rfl

/-- A type is made. -/
def make (meaning : Meaning) : Account Meaning := ⟨meaning, [meaning], []⟩

/-- An error is reported. -/
def report (file : Option String) (code : Code) (place : Position) (message : String) : Account Unit :=
  ⟨(), [], [{ phase := .typecheck, code := some code, message := message, span := place.toSpan file }]⟩

mutual

/-- What a spelled type comes to. -/
def ofType (file : Option String) (typeVars roster : Roster) : Surface.TypeExpr → Account Meaning
  | .array _ length element => do
      let element ← ofType file typeVars roster element
      make (.array length element)
  | .tuple _ elements => do
      let elements ← ofTypes file typeVars roster elements
      make (.tuple elements)
  | .wrap _ wrapper inner => do
      let inner ← ofType file typeVars roster inner
      make (.wrap wrapper inner)
  | .named place name args =>
      match (if args.isEmpty then typeVars.lookup name else none) with
      | some typeVar => return .named typeVar
      | none =>
          match roster.lookup name with
          | none => do
              report file .unknownType place s!"unknown type '{name}'"
              make (.named .unknown)
          | some symbol =>
              if args.length ≠ symbol.arity then do
                report file .arityMismatch place
                  s!"type '{name}' expects {symbol.arity} type argument(s), got {args.length}"
                make (.named .unknown)
              else if args.isEmpty then
                return .named symbol
              else do
                let args ← ofTypes file typeVars roster args
                make (.applied symbol args)

/-- What spelled types come to, in order. -/
def ofTypes (file : Option String) (typeVars roster : Roster) : List Surface.TypeExpr → Account (List Meaning)
  | [] => return []
  | first :: rest => do
      let meaning ← ofType file typeVars roster first
      let others ← ofTypes file typeVars roster rest
      return meaning :: others

end

theorem length_ofTypes (file : Option String) (typeVars roster : Roster) (spelled : List Surface.TypeExpr) :
    (ofTypes file typeVars roster spelled).result.length = spelled.length := by
  induction spelled with
  | nil => rfl
  | cons first rest ih =>
      rw [ofTypes]
      exact congrArg (· + 1) ih

/-- What the base of an object comes to. -/
def ofBase (file : Option String) (typeVars roster : Roster) (owner : String) :
    Option Surface.TypeExpr → Account (Option Meaning)
  | none => return none
  | some spelled => do
      let meaning ← ofType file typeVars roster spelled
      match meaning with
      | .named (.object ..) | .applied .. => return some meaning
      | .named .unknown => return none
      | _ => do
          report file .unknownType spelled.place
            s!"base of '{owner}' must be an object type, got '{meaning.text}'"
          return none

/-- What the fields of an object come to. -/
def ofFields (file : Option String) (typeVars roster : Roster) (owner : String) :
    (seen : List String) → List Surface.Member → Account (List (String × Meaning))
  | _, [] => return []
  | seen, member :: rest =>
      if member.name ∈ seen then do
        report file .duplicateDeclaration member.place
          s!"duplicate field '{member.name}' in '{owner}'"
        ofFields file typeVars roster owner seen rest
      else do
        let type ← ofType file typeVars roster member.type
        let others ← ofFields file typeVars roster owner (member.name :: seen) rest
        return (member.name, type) :: others

/-- What the body of an object comes to. -/
def ofObject (file : Option String) (roster : Roster) (decl : Surface.ObjectDecl) : Account Detail := do
  let base ← ofBase file (decl.symbol file).typeVars roster decl.name decl.base
  let fields ← ofFields file (decl.symbol file).typeVars roster decl.name [] decl.fields
  return .body fields base

/-- What a distinct type comes to. -/
def ofDistinct (file : Option String) (roster : Roster) (decl : Surface.DistinctDecl) : Account Detail := do
  let underlying ← ofType file [] roster decl.underlying
  let _ ← make (.named (decl.symbol file))
  return .underlying underlying

end Account

namespace TypeTable

variable {table larger : TypeTable} {label further : TypeId → Meaning} {made : List Meaning}
  {entries : List (String × TypeId)} {roster : Roster}

/-- Names that stand for the types that are called so. -/
def Enrolls (table : TypeTable) (label : TypeId → Meaning) : List (String × TypeId) → Roster → Prop :=
  List.Forall₂ fun entry called => entry.1 = called.1 ∧ table.Means label entry.2 (.named called.2)

theorem Enrolls.retains (enrolls : table.Enrolls label entries roster) (retains : table.Retains label larger further) :
    larger.Enrolls further entries roster :=
  List.Forall₂.imp (fun _ _ told => ⟨told.1, retains _ _ told.2⟩) enrolls

theorem Enrolls.filter (enrolls : table.Enrolls label entries roster) (kept : String → Bool) :
    table.Enrolls label (entries.filter fun entry => kept entry.1) (roster.filter fun entry => kept entry.1) := by
  induction enrolls with
  | nil => exact .nil
  | @cons entry called entries roster here _ ih =>
      rw [List.filter_cons, List.filter_cons, here.1]
      split
      · exact .cons here ih
      · exact ih

/-- A name is looked up in both. -/
theorem Enrolls.lookup (enrolls : table.Enrolls label entries roster) (name : String) :
    Option.Rel (fun id symbol => table.Means label id (.named symbol)) (entries.lookup name) (roster.lookup name) := by
  induction enrolls with
  | nil => exact .none
  | @cons entry called entries roster here _ ih =>
      obtain ⟨same, means⟩ := here
      rw [List.lookup_cons, List.lookup_cons, same]
      split
      · exact .some means
      · exact ih

/-- The type parameters of an object stand for themselves. -/
theorem Enrolls.typeVars {declared : String} {params : List String} {span : Span} {ids : List TypeId}
    (has : ∀ id ∈ ids, table.Has id)
    (called : ids.map label = (Symbol.object declared params span).params.map .named) :
    table.Enrolls label (TypeVars.of params ids) (Symbol.object declared params span).typeVars := by
  refine List.forall₂_reverse_iff.mpr ?_
  have names := Symbol.map_name_params declared params span
  generalize (Symbol.object declared params span).params = symbols at called names
  subst names
  induction ids generalizing symbols with
  | nil =>
      obtain rfl := List.map_eq_nil_iff.mp called.symm
      exact .nil
  | cons id ids ih =>
      obtain ⟨hasHere, hasOthers⟩ := List.forall_mem_cons.mp has
      obtain ⟨symbol, others, rfl, here, behind⟩ := List.map_eq_cons_iff.mp called.symm
      exact .cons ⟨rfl, hasHere, here.symm⟩ (ih hasOthers others behind.symm)

theorem has_of_means {ids : List TypeId} {meanings : List Meaning} (told : List.Forall₂ (table.Means label) ids meanings) :
    (∀ id ∈ ids, table.Has id) ∧ ids.map label = meanings := by
  induction told with
  | nil => exact ⟨by simp, rfl⟩
  | cons means _ ih => exact ⟨List.forall_mem_cons.mpr ⟨means.1, ih.1⟩, congrArg₂ _ means.2 ih.2⟩

/-- A type takes as many arguments as its name says. -/
theorem Labelled.arity (labelled : table.Labelled label) {id : TypeId} {type : TypeDef} {symbol : Symbol}
    (found : table.get? id = some type) (called : label id = .named symbol) :
    type.typeParams.length = symbol.arity := by
  have described := (labelled.describes id type found).asks
  rw [called] at described
  cases type with
  | typevar name =>
      obtain ⟨owner, index, same⟩ := described
      obtain rfl := Meaning.named.inj same
      rfl
  | object declared =>
      obtain ⟨params, same, params_⟩ := described
      obtain rfl := Meaning.named.inj same
      have lengths := congrArg List.length params_
      simpa [Symbol.params, Symbol.arity, TypeDef.typeParams] using lengths
  | applied head args =>
      obtain ⟨head, -, same⟩ := described
      cases same
  | array length element => cases described
  | tuple elements => cases described
  | wrap wrapper inner => cases described
  | _ =>
      obtain rfl := Meaning.named.inj described
      rfl

end TypeTable

namespace Declarations

/-- The types of the declarations are called so, and their names are on the roster. -/
structure Stands (declarations : Declarations) (label : TypeId → Meaning) (roster : Roster) : Prop where
  labelled : declarations.table.Labelled label
  enrolls : declarations.table.Enrolls label declarations.names roster
  owners : ∀ symbol, .named symbol ∈ declarations.table.meanings label → ∀ owner ∈ symbol.owner?,
    ∃ head, (owner, head) ∈ roster ∧ (symbol = head ∨ symbol ∈ head.params)

/-- Later declarations come from earlier ones, after this was made and that was reported. -/
structure Reaches (declarations : Declarations) (label : TypeId → Meaning) (later : Declarations)
    (further : TypeId → Meaning) (made : List Meaning) (said : List Diagnostic) : Prop where
  names : declarations.table.Names label later.table further made
  said : later.diagnostics = declarations.diagnostics ++ said

variable {declarations later last : Declarations} {label further final : TypeId → Meaning} {roster : Roster}
  {made others : List Meaning} {said behind : List Diagnostic}

theorem Reaches.refl (declarations : Declarations) (label : TypeId → Meaning) :
    declarations.Reaches label declarations label [] [] :=
  ⟨.refl declarations.table label, (List.append_nil _).symm⟩

theorem Reaches.trans (first : declarations.Reaches label later further made said)
    (second : later.Reaches further last final others behind) :
    declarations.Reaches label last final (made ++ others) (said ++ behind) :=
  ⟨first.names.trans second.names, by rw [second.said, first.said, List.append_assoc]⟩

end Declarations

namespace DeclareM

open Declarations TypeTable

/-- A way to tell whether a result is what an account says. -/
abbrev Agrees (Result Wanted : Type) := TypeTable → (TypeId → Meaning) → Result → Wanted → Prop

/-- A computation answers as its account says, and makes and reports what it says. -/
def Follows {Result Wanted : Type} (agrees : Agrees Result Wanted) (action : DeclareM Result)
    (account : Account Wanted) (declarations : Declarations) (label : TypeId → Meaning) (roster : Roster) : Prop :=
  ∃ result later further, action declarations = .ok result later ∧ later.Stands further roster ∧
    declarations.Reaches label later further account.made account.said ∧
    agrees later.table further result account.result

section Following

variable {Result Wanted Result' Wanted' : Type} {agrees : Agrees Result Wanted} {agrees' : Agrees Result' Wanted'}
  {declarations : Declarations} {label : TypeId → Meaning} {roster : Roster} {file : Option String}

theorem follows_pure {result : Result} {wanted : Wanted} (stands : declarations.Stands label roster)
    (told : agrees declarations.table label result wanted) :
    Follows agrees (pure result) (pure wanted) declarations label roster :=
  ⟨result, declarations, label, rfl, stands, .refl declarations label, told⟩

/-- One computation after another follows one account after another. -/
theorem Follows.bind {action : DeclareM Result} {account : Account Wanted} {next : Result → DeclareM Result'}
    {next' : Wanted → Account Wanted'} (follows : Follows agrees action account declarations label roster)
    (continues : ∀ result later further, later.Stands further roster →
      declarations.table.Names label later.table further account.made → agrees later.table further result account.result →
        Follows agrees' (next result) (next' account.result) later further roster) :
    Follows agrees' (action >>= next) (account >>= next') declarations label roster := by
  obtain ⟨result, later, further, run, stands, reaches, told⟩ := follows
  obtain ⟨result', last, final, run', stands', reaches', told'⟩ :=
    continues result later further stands reaches.names told
  exact ⟨result', last, final, (bind_run_of_ok run).trans run', stands', reaches.trans reaches', told'⟩

/-- Looking something up makes and reports nothing. -/
theorem Follows.read {Answer : Type} {question : DeclareM Answer} {answer : Answer} {next : Answer → DeclareM Result}
    {account : Account Wanted} (run : question declarations = .ok answer declarations)
    (follows : Follows agrees (next answer) account declarations label roster) :
    Follows agrees (question >>= next) account declarations label roster := by
  obtain ⟨result, later, further, run', rest⟩ := follows
  exact ⟨result, later, further, (bind_run_of_ok run).trans run', rest⟩

theorem report_follows (stands : declarations.Stands label roster) (code : Code) (place : Position) (message : String) :
    Follows (fun _ _ _ _ => True) (report file code place message) (Account.report file code place message)
      declarations label roster :=
  ⟨(), _, label, rfl, ⟨stands.labelled, stands.enrolls, stands.owners⟩, ⟨.refl _ _, rfl⟩, trivial⟩

/-- A type that goes back to no declaration may be made at any time. -/
theorem onTable_follows {action : TableM TypeId} {meaning : Meaning} (stands : declarations.Stands label roster)
    (gives : Gives action declarations.table label meaning [meaning]) (free : meaning.owner? = none) :
    Follows Means (onTable action) (Account.make meaning) declarations label roster := by
  obtain ⟨id, larger, further, run, labelled, names, means⟩ := gives
  refine ⟨id, { declarations with table := larger }, further, ?_, ⟨labelled, stands.enrolls.retains names.retains, ?_⟩,
    ⟨names, (List.append_nil _).symm⟩, means⟩
  · unfold onTable onPart
    rw [run]
  · intro symbol member owner owned
    rw [names.meanings] at member
    rcases member with before | made
    · exact stands.owners symbol before owner owned
    · rw [← List.mem_singleton.mp made] at free
      exact absurd (free.symm.trans owned) (by simp)

/-- What is missing is reported, and the unknown type takes its place. -/
theorem reportUnknown_follows (stands : declarations.Stands label roster) (code : Code) (place : Position)
    (message : String) :
    Follows Means (do report file code place message; onTable TableM.unknown)
      (do Account.report file code place message; Account.make (.named .unknown)) declarations label roster :=
  (report_follows stands code place message).bind fun _ _ _ stands _ _ =>
    onTable_follows stands (TableM.unknown_gives stands.labelled) rfl

end Following

section Spelling

variable {label : TypeId → Meaning} {roster vars : Roster} (file : Option String) {typeVars : TypeVars}

mutual

/-- A spelled type resolves as its account says. -/
theorem resolveType_follows : (spelled : Surface.TypeExpr) → (declarations : Declarations) →
    (label : TypeId → Meaning) → declarations.Stands label roster → declarations.table.Enrolls label typeVars vars →
    Follows Means (resolveType file typeVars spelled) (Account.ofType file vars roster spelled) declarations label roster
  | .array _ length element, declarations, label, stands, enrolls => by
      rw [resolveType, Account.ofType]
      apply (resolveType_follows element declarations label stands enrolls).bind
      rintro id later further stands - ⟨has, same⟩
      rw [← same]
      refine onTable_follows stands (TableM.intern_gives stands.labelled rfl ?_ (by simp) ⟨rfl, rfl⟩) rfl
      simpa [TypeDef.parts] using has
  | .tuple _ elements, declarations, label, stands, enrolls => by
      rw [resolveType, Account.ofType]
      apply (resolveTypes_follows elements declarations label stands enrolls).bind
      intro ids later further stands _ told
      obtain ⟨has, same⟩ := has_of_means told
      rw [← same]
      exact onTable_follows stands (TableM.intern_gives stands.labelled rfl has (by simp) ⟨rfl, rfl⟩) rfl
  | .wrap _ wrapper inner, declarations, label, stands, enrolls => by
      rw [resolveType, Account.ofType]
      apply (resolveType_follows inner declarations label stands enrolls).bind
      rintro id later further stands - ⟨has, same⟩
      rw [← same]
      refine onTable_follows stands (TableM.intern_gives stands.labelled rfl ?_ (by simp) ⟨rfl, rfl⟩) rfl
      simpa [TypeDef.parts] using has
  | .named place name args, declarations, label, stands, enrolls => by
      rw [resolveType, Account.ofType]
      have isVar : Option.Rel (fun id symbol => declarations.table.Means label id (.named symbol))
          (if args.isEmpty then typeVars.lookup name else none) (if args.isEmpty then vars.lookup name else none) := by
        split
        · exact enrolls.lookup name
        · exact .none
      generalize (if args.isEmpty then typeVars.lookup name else none) = typeVar at isVar ⊢
      generalize (if args.isEmpty then vars.lookup name else none) = var at isVar ⊢
      cases isVar with
      | some means => exact follows_pure stands means
      | none =>
          refine Follows.read (get_run declarations) ?_
          have declared := stands.enrolls.lookup name
          generalize declarations.names.lookup name = known at declared ⊢
          generalize roster.lookup name = called at declared ⊢
          cases declared with
          | none => exact reportUnknown_follows stands _ place _
          | @some id symbol means =>
              obtain ⟨type, found⟩ := means.1.exists
              refine Follows.read (ask_run (TypeTable.get_eq_ok.mpr found)) ?_
              dsimp only
              rw [stands.labelled.arity found means.2]
              by_cases sameLength : args.length = symbol.arity
              · rw [if_neg (not_not.mpr sameLength), if_neg (not_not.mpr sameLength)]
                split
                · exact follows_pure stands means
                · rename_i generic
                  apply (resolveTypes_follows args declarations label stands enrolls).bind
                  intro ids later further stands names told
                  obtain ⟨has, same⟩ := has_of_means told
                  rw [← same]
                  have lengths : ids.length = args.length :=
                    told.length_eq.trans (Account.length_ofTypes file vars roster args)
                  have generic : ids ≠ [] := by
                    rintro rfl
                    exact generic (List.isEmpty_iff.mpr (List.eq_nil_of_length_eq_zero lengths.symm))
                  have arity := stands.labelled.arity (names.extends_.get? found) (means.names names).2
                  exact onTable_follows stands (TableM.instantiate_gives stands.labelled (names.extends_.get? found)
                    (means.names names).2 (lengths.trans (sameLength.trans arity.symm)) generic has) rfl
              · rw [if_pos sameLength, if_pos sameLength]
                exact reportUnknown_follows stands _ place _

theorem resolveTypes_follows : (spelled : List Surface.TypeExpr) → (declarations : Declarations) →
    (label : TypeId → Meaning) → declarations.Stands label roster → declarations.table.Enrolls label typeVars vars →
    Follows (fun table label => List.Forall₂ (table.Means label)) (resolveTypes file typeVars spelled)
      (Account.ofTypes file vars roster spelled) declarations label roster
  | [], declarations, label, stands, _ => by
      rw [resolveTypes, Account.ofTypes]
      exact follows_pure stands .nil
  | first :: rest, declarations, label, stands, enrolls => by
      rw [resolveTypes, Account.ofTypes]
      apply (resolveType_follows first declarations label stands enrolls).bind
      intro id later further stands names means
      apply (resolveTypes_follows rest later further stands (enrolls.retains names.retains)).bind
      intro ids last final stands names others
      exact follows_pure stands (.cons (means.names names) others)

end

/-- The base of an object is resolved as its account says. -/
theorem resolveBase_follows {declarations : Declarations} (stands : declarations.Stands label roster)
    (enrolls : declarations.table.Enrolls label typeVars vars) (owner : String) (base : Option Surface.TypeExpr) :
    Follows (fun table label => Option.Rel (table.Means label)) (resolveBase file typeVars owner base)
      (Account.ofBase file vars roster owner base) declarations label roster := by
  cases base with
  | none => exact follows_pure stands .none
  | some spelled =>
      apply (resolveType_follows file spelled declarations label stands enrolls).bind
      intro id later further stands _ means
      generalize (Account.ofType file vars roster spelled).result = meaning at means ⊢
      obtain ⟨type, found⟩ := means.1.exists
      have described := (stands.labelled.describes id type found).asks
      have spells := TableM.spell_labelled stands.labelled means.1
      rw [means.2] at described spells
      refine Follows.read (ask_run (TypeTable.get_eq_ok.mpr found)) ?_
      have refused : Follows (fun table label => Option.Rel (table.Means label)) (do
          let spelling ← ask (·.spell id)
          report file .unknownType spelled.place
            s!"base of '{owner}' must be an object type, got '{spelling}'"
          return none) (do
          Account.report file .unknownType spelled.place
            s!"base of '{owner}' must be an object type, got '{meaning.text}'"
          return none) later further roster :=
        Follows.read (ask_run spells) ((report_follows stands _ spelled.place _).bind
          fun _ _ _ stands _ _ => follows_pure stands .none)
      cases type with
      | unknown =>
          obtain rfl := described
          exact follows_pure stands .none
      | object declared =>
          obtain ⟨params, rfl, -⟩ := described
          exact follows_pure stands (.some means)
      | applied head args =>
          obtain ⟨symbol, -, rfl⟩ := described
          exact follows_pure stands (.some means)
      | typevar name =>
          obtain ⟨owner, index, rfl⟩ := described
          exact refused
      | _ =>
          obtain rfl := described
          exact refused

/-- The fields of an object are resolved as their account says. -/
theorem resolveFields_follows {declarations : Declarations} (owner : String) (members : List Surface.Member)
    (seen : List String) (stands : declarations.Stands label roster)
    (enrolls : declarations.table.Enrolls label typeVars vars) :
    Follows (fun table label => List.Forall₂ fun (field : Field) called =>
        field.name = called.1 ∧ table.Means label field.type called.2)
      (resolveFields file typeVars owner seen members) (Account.ofFields file vars roster owner seen members)
      declarations label roster := by
  induction members generalizing seen declarations label with
  | nil => exact follows_pure stands .nil
  | cons member members ih =>
      unfold resolveFields Account.ofFields
      split
      · apply (report_follows stands _ member.place _).bind
        exact fun _ later further stands names _ => ih seen stands (enrolls.retains names.retains)
      · apply (resolveType_follows file member.type declarations label stands enrolls).bind
        intro type later further stands names means
        apply (ih (member.name :: seen) stands (enrolls.retains names.retains)).bind
        intro fields last final stands names others
        exact follows_pure stands (.cons ⟨rfl, means.names names⟩ others)

end Spelling
end DeclareM
end LifecycleHooks

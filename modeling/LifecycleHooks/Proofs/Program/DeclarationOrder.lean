import LifecycleHooks.Proofs.Program.Ledgers

/-!
# The order of declarations

Objects may be declared in any order, and so may distinct types, as long as each of them sees
the same of the others that it mentions: two orders of the same declarations then have the same
ledger, but for the order of its entries.  So the same is reported, and one table is the other
with its ids renamed.
-/

namespace LifecycleHooks

open Attempt

namespace Surface

mutual

/-- The names that a spelled type mentions. -/
def TypeExpr.mentions : TypeExpr → List String
  | .array _ _ element => element.mentions
  | .tuple _ elements => mentionsOf elements
  | .wrap _ _ inner => inner.mentions
  | .named _ name args => name :: mentionsOf args

/-- The names that spelled types mention. -/
def mentionsOf : List TypeExpr → List String
  | [] => []
  | first :: rest => first.mentions ++ mentionsOf rest

end

/-- A distinct type of the first name is declared before one of the second name. -/
def Precedes (decls : List TypeDecl) (first second : String) : Prop :=
  [first, second].Sublist ((distincts decls).map DistinctDecl.name)

instance (decls : List TypeDecl) (first second : String) : Decidable (Precedes decls first second) :=
  inferInstanceAs (Decidable (List.Sublist _ _))

/-- Among these declarations and among those, each distinct type sees the same of the distinct
types that it mentions. -/
def SeesAlike (decls others : List TypeDecl) : Prop :=
  ∀ decl ∈ distincts decls, ∀ name ∈ decl.underlying.mentions,
    (Precedes decls name decl.name ↔ Precedes others name decl.name)

instance (decls others : List TypeDecl) : Decidable (SeesAlike decls others) :=
  inferInstanceAs (Decidable (∀ decl ∈ distincts decls, ∀ name ∈ decl.underlying.mentions,
    (Precedes decls name decl.name ↔ Precedes others name decl.name)))

end Surface

namespace Account

variable (file : Option String) (typeVars : Roster) {first second : Roster}

mutual

/-- What a spelled type comes to depends only on the names that it mentions. -/
theorem ofType_congr : (spelled : Surface.TypeExpr) →
    (∀ name ∈ spelled.mentions, first.lookup name = second.lookup name) →
    ofType file typeVars first spelled = ofType file typeVars second spelled
  | .array _ length element, same => by
      rw [ofType, ofType, ofType_congr element same]
  | .tuple _ elements, same => by
      rw [ofType, ofType, ofTypes_congr elements same]
  | .wrap _ wrapper inner, same => by
      rw [ofType, ofType, ofType_congr inner same]
  | .named place name args, same => by
      obtain ⟨here, others⟩ := List.forall_mem_cons.mp same
      rw [ofType, ofType, here, ofTypes_congr args others]

theorem ofTypes_congr : (spelled : List Surface.TypeExpr) →
    (∀ name ∈ Surface.mentionsOf spelled, first.lookup name = second.lookup name) →
    ofTypes file typeVars first spelled = ofTypes file typeVars second spelled
  | [], _ => rfl
  | head :: rest, same => by
      obtain ⟨here, others⟩ := List.forall_mem_append.mp same
      rw [ofTypes, ofTypes, ofType_congr head here, ofTypes_congr rest others]

end

theorem ofFields_congr (same : ∀ name, first.lookup name = second.lookup name) (owner : String) (seen : List String)
    (members : List Surface.Member) :
    ofFields file typeVars first owner seen members = ofFields file typeVars second owner seen members := by
  induction members generalizing seen with
  | nil => rfl
  | cons member members ih =>
      rw [ofFields, ofFields, ofType_congr file typeVars member.type fun name _ => same name, ih, ih]

/-- What an object comes to depends only on what the names stand for. -/
theorem ofObject_congr (same : ∀ name, first.lookup name = second.lookup name) (decl : Surface.ObjectDecl) :
    ofObject file first decl = ofObject file second decl := by
  have base : ofBase file (decl.symbol file).typeVars first decl.name decl.base =
      ofBase file (decl.symbol file).typeVars second decl.name decl.base := by
    cases decl.base with
    | none => rfl
    | some spelled => rw [ofBase, ofBase, ofType_congr file _ spelled fun name _ => same name]
  rw [ofObject, ofObject, base, ofFields_congr file _ same]

end Account

/-- A name that occurs once stands for its only entry. -/
theorem lookup_eq_some_iff_mem {Value : Type} {entries : List (String × Value)} (names : (entries.map Prod.fst).Nodup)
    {name : String} {value : Value} : entries.lookup name = some value ↔ (name, value) ∈ entries :=
  ⟨mem_of_lookup, lookup_of_mem names⟩

namespace Ledger

/-- The ledgers have the same entries, each in its own order. -/
structure SameEntries (ledger other : Ledger) : Prop where
  roster : ledger.roster.Perm other.roster
  made : ledger.made.Perm other.made
  details : ledger.details.Perm other.details
  said : ledger.said.Perm other.said

open Surface

variable {file : Option String} {decls others : List TypeDecl}

/-- The distinct types before another one are those that precede it. -/
theorem mem_takeWhile_iff {decls : List DistinctDecl} (names : (decls.map DistinctDecl.name).Nodup)
    {decl : DistinctDecl} (member : decl ∈ decls) {earlier : DistinctDecl} (also : earlier ∈ decls) :
    earlier ∈ decls.takeWhile (·.name ≠ decl.name) ↔
      [earlier.name, decl.name].Sublist (decls.map DistinctDecl.name) := by
  induction decls with
  | nil => cases member
  | cons first decls ih =>
      obtain ⟨new, others⟩ := List.nodup_cons.mp names
      rw [List.map_cons, List.cons_sublist_cons']
      by_cases same : first.name = decl.name
      · have absent : decl.name ∉ decls.map DistinctDecl.name := same ▸ new
        have none : (first :: decls).takeWhile (·.name ≠ decl.name) = [] := by simp [same]
        rw [none]
        refine ⟨fun inside => absurd inside List.not_mem_nil, ?_⟩
        rintro (behind | ⟨-, here⟩)
        · exact absurd (behind.subset (by simp)) absent
        · exact absurd (here.subset (by simp)) absent
      · have inside : decl ∈ decls := (List.mem_cons.mp member).resolve_left fun equal => same (equal ▸ rfl)
        have split : (first :: decls).takeWhile (·.name ≠ decl.name) =
            first :: decls.takeWhile (·.name ≠ decl.name) := by simp [same]
        rw [split, List.mem_cons]
        rcases List.mem_cons.mp also with rfl | behind
        · exact ⟨fun _ => .inr ⟨rfl, List.singleton_sublist.mpr (List.mem_map_of_mem inside)⟩, fun _ => .inl rfl⟩
        · have differ : earlier.name ≠ first.name := fun equal => new (equal ▸ List.mem_map_of_mem behind)
          rw [ih others inside behind]
          refine ⟨fun either => .inl (either.resolve_left fun equal => differ (equal ▸ rfl)), fun either => .inr ?_⟩
          exact either.resolve_right fun equal => differ equal.1

section Reordering

variable {file : Option String} {decls others : List TypeDecl}

/-- The names of the built-in types and of the objects, and what they stand for. -/
def objectRoster (file : Option String) (decls : List TypeDecl) : Roster :=
  builtIns.roster ++ (objects decls).map (ObjectDecl.entry file)

theorem objects_perm (perm : decls.Perm others) : (objects decls).Perm (objects others) := perm.filterMap _

theorem distincts_perm (perm : decls.Perm others) : (distincts decls).Perm (distincts others) := perm.filterMap _

theorem objectRoster_perm (perm : decls.Perm others) : (objectRoster file decls).Perm (objectRoster file others) :=
  ((objects_perm perm).map _).append_left _

/-- All names of a program occur once. -/
theorem names_nodup (fresh : (builtInNames ++ decls.map TypeDecl.name).Nodup) :
    ((objectRoster file decls ++ (distincts decls).map (DistinctDecl.entry file)).map Prod.fst).Nodup := by
  have names := ((names_perm decls).append_left builtInNames).nodup_iff.mpr fresh
  simpa [objectRoster, builtIns, builtInNames, ObjectDecl.entry, DistinctDecl.entry, Function.comp_def] using names

theorem distinctNames_nodup (fresh : (builtInNames ++ decls.map TypeDecl.name).Nodup) :
    ((distincts decls).map DistinctDecl.name).Nodup := by
  have names := ((names_perm decls).append_left builtInNames).nodup_iff.mpr fresh
  exact (List.nodup_append.mp (List.nodup_append.mp names).2.1).2.1

/-- What a distinct type sees of the others are those that precede it. -/
theorem mem_before_iff (names : ((distincts decls).map DistinctDecl.name).Nodup) {decl : DistinctDecl}
    (member : decl ∈ distincts decls) {name : String} {symbol : Symbol} :
    (name, symbol) ∈ ((distincts decls).takeWhile (·.name ≠ decl.name)).map (DistinctDecl.entry file) ↔
      Precedes decls name decl.name ∧ (name, symbol) ∈ (distincts decls).map (DistinctDecl.entry file) := by
  constructor
  · intro inside
    obtain ⟨earlier, before, same⟩ := List.mem_map.mp inside
    obtain ⟨rfl, rfl⟩ := Prod.mk.inj same
    have also := (List.takeWhile_sublist _).subset before
    exact ⟨(mem_takeWhile_iff names member also).mp before, List.mem_map_of_mem also⟩
  · rintro ⟨precedes, inside⟩
    obtain ⟨earlier, also, same⟩ := List.mem_map.mp inside
    obtain ⟨rfl, rfl⟩ := Prod.mk.inj same
    exact List.mem_map_of_mem (f := DistinctDecl.entry file) ((mem_takeWhile_iff names member also).mpr precedes)

/-- A distinct type that sees the same of what it mentions comes to the same. -/
theorem distinctAccount_eq (perm : decls.Perm others) (fresh : (builtInNames ++ decls.map TypeDecl.name).Nodup)
    {decl : DistinctDecl} (member : decl ∈ distincts decls)
    (alike : ∀ name ∈ decl.underlying.mentions, (Precedes decls name decl.name ↔ Precedes others name decl.name)) :
    distinctAccount file (objectRoster file decls) (distincts decls) decl =
      distinctAccount file (objectRoster file others) (distincts others) decl := by
  have fresh' : (builtInNames ++ others.map TypeDecl.name).Nodup :=
    ((perm.map _).append_left _).nodup_iff.mp fresh
  have known (decls : List TypeDecl) (fresh : (builtInNames ++ decls.map TypeDecl.name).Nodup) :
      ((objectRoster file decls ++ ((distincts decls).takeWhile (·.name ≠ decl.name)).map
        (DistinctDecl.entry file)).map Prod.fst).Nodup :=
    (names_nodup fresh).sublist
      ((((List.takeWhile_sublist _).map _).append_left (objectRoster file decls)).map Prod.fst)
  have same : ∀ name ∈ decl.underlying.mentions,
      (objectRoster file decls ++ ((distincts decls).takeWhile (·.name ≠ decl.name)).map
        (DistinctDecl.entry file)).lookup name =
      (objectRoster file others ++ ((distincts others).takeWhile (·.name ≠ decl.name)).map
        (DistinctDecl.entry file)).lookup name := by
    intro name mentioned
    refine Option.ext fun symbol => ?_
    rw [lookup_eq_some_iff_mem (known decls fresh), lookup_eq_some_iff_mem (known others fresh'), List.mem_append,
      List.mem_append, (objectRoster_perm perm).mem_iff]
    refine or_congr_right ?_
    rw [mem_before_iff (distinctNames_nodup fresh) member,
      mem_before_iff (distinctNames_nodup fresh') ((distincts_perm perm).mem_iff.mp member), alike name mentioned,
      ((distincts_perm perm).map _).mem_iff]
  rw [distinctAccount, distinctAccount, Account.ofDistinct, Account.ofDistinct,
    Account.ofType_congr file [] decl.underlying same]

/-- The ledger of a program, part by part. -/
theorem ofProgram_eq (names : ((distincts decls).map DistinctDecl.name).Nodup) :
    ofProgram file decls =
      ({ ({ roster := objectRoster file decls
            made := builtIns.made ++ (objects decls).flatMap fun decl =>
              .named (decl.symbol file) :: (decl.symbol file).params.map .named } : Ledger).settleAll
          ((distincts decls).map fun decl =>
            (decl.symbol file, distinctAccount file (objectRoster file decls) (distincts decls) decl)) with
        roster := objectRoster file decls ++ (distincts decls).map (DistinctDecl.entry file) } : Ledger).settleAll
          ((objects decls).map fun decl => (decl.symbol file, Account.ofObject file
            (objectRoster file decls ++ (distincts decls).map (DistinctDecl.entry file)) decl)) := by
  rw [ofProgram, foldl_defineObject, foldl_declareDistinct _ _ _ names, foldl_declareObject]
  rfl

theorem SameEntries.settleAll {ledger other : Ledger} (same : ledger.SameEntries other)
    {accounts alike : List (Symbol × Account Detail)} (perm : accounts.Perm alike) :
    (ledger.settleAll accounts).SameEntries (other.settleAll alike) where
  roster := same.roster
  made := same.made.append (perm.flatMap_right _)
  details := same.details.append (perm.map _)
  said := same.said.append (perm.flatMap_right _)

theorem SameEntries.withRoster {ledger other : Ledger} (same : ledger.SameEntries other) {roster alike : Roster}
    (perm : roster.Perm alike) :
    ({ ledger with roster := roster } : Ledger).SameEntries { other with roster := alike } where
  roster := perm
  made := same.made
  details := same.details
  said := same.said

/-- In either order the declarations come to the same. -/
theorem ofProgram_sameEntries (file : Option String) (perm : decls.Perm others) (fresh : (builtInNames ++ decls.map TypeDecl.name).Nodup)
    (alike : SeesAlike decls others) : (ofProgram file decls).SameEntries (ofProgram file others) := by
  have fresh' : (builtInNames ++ others.map TypeDecl.name).Nodup :=
    ((perm.map _).append_left _).nodup_iff.mp fresh
  have rosters : (objectRoster file decls ++ (distincts decls).map (DistinctDecl.entry file)).Perm
      (objectRoster file others ++ (distincts others).map (DistinctDecl.entry file)) :=
    (objectRoster_perm perm).append ((distincts_perm perm).map _)
  have distinctAccounts : ((distincts decls).map fun decl =>
        (decl.symbol file, distinctAccount file (objectRoster file decls) (distincts decls) decl)).Perm
      ((distincts others).map fun decl =>
        (decl.symbol file, distinctAccount file (objectRoster file others) (distincts others) decl)) := by
    refine List.Perm.trans (.of_eq (List.map_congr_left fun decl member => ?_)) ((distincts_perm perm).map _)
    rw [distinctAccount_eq perm fresh member (alike decl member)]
  have lookups (name : String) :
      (objectRoster file decls ++ (distincts decls).map (DistinctDecl.entry file)).lookup name =
        (objectRoster file others ++ (distincts others).map (DistinctDecl.entry file)).lookup name := by
    refine Option.ext fun symbol => ?_
    rw [lookup_eq_some_iff_mem (names_nodup fresh), lookup_eq_some_iff_mem (names_nodup fresh'), rosters.mem_iff]
  have objectAccounts : ((objects decls).map fun decl => (decl.symbol file, Account.ofObject file
        (objectRoster file decls ++ (distincts decls).map (DistinctDecl.entry file)) decl)).Perm
      ((objects others).map fun decl => (decl.symbol file, Account.ofObject file
        (objectRoster file others ++ (distincts others).map (DistinctDecl.entry file)) decl)) := by
    refine List.Perm.trans (.of_eq (List.map_congr_left fun decl _ => ?_)) ((objects_perm perm).map _)
    rw [Account.ofObject_congr file lookups]
  rw [ofProgram_eq (distinctNames_nodup fresh), ofProgram_eq (distinctNames_nodup fresh')]
  have declared : SameEntries
      { roster := objectRoster file decls
        made := builtIns.made ++ (objects decls).flatMap fun decl =>
          .named (decl.symbol file) :: (decl.symbol file).params.map .named }
      { roster := objectRoster file others
        made := builtIns.made ++ (objects others).flatMap fun decl =>
          .named (decl.symbol file) :: (decl.symbol file).params.map .named } :=
    ⟨objectRoster_perm perm, ((objects_perm perm).flatMap_right _).append_left _, .nil, .nil⟩
  exact ((declared.settleAll distinctAccounts).withRoster rosters).settleAll objectAccounts

end Reordering

theorem mem_details_settleAll {ledger : Ledger} {accounts : List (Symbol × Account Detail)} {symbol : Symbol}
    {account : Account Detail} (member : (symbol, account) ∈ accounts) :
    (symbol, account.result) ∈ (ledger.settleAll accounts).details :=
  List.mem_append_right _ (List.mem_map.mpr ⟨_, member, rfl⟩)

/-- What each declared type is is told. -/
theorem exists_detail (names : ((distincts decls).map DistinctDecl.name).Nodup) {name : String} {symbol : Symbol}
    (onRoster : (name, symbol) ∈ (ofProgram file decls).roster) (declared : symbol.owner?.isSome) :
    ∃ detail, (symbol, detail) ∈ (ofProgram file decls).details := by
  rw [ofProgram_eq names] at onRoster ⊢
  rcases List.mem_append.mp onRoster with known | isDistinct
  · rcases List.mem_append.mp known with isBuiltIn | isObject
    · simp only [builtIns, List.mem_cons, Prod.mk.injEq, List.not_mem_nil, or_false] at isBuiltIn
      rcases isBuiltIn with ⟨-, rfl⟩ | ⟨-, rfl⟩ | ⟨-, rfl⟩ <;> cases declared
    · obtain ⟨decl, member, same⟩ := List.mem_map.mp isObject
      obtain ⟨rfl, rfl⟩ := Prod.mk.inj same
      exact ⟨_, mem_details_settleAll (List.mem_map_of_mem member)⟩
  · obtain ⟨decl, member, same⟩ := List.mem_map.mp isDistinct
    obtain ⟨rfl, rfl⟩ := Prod.mk.inj same
    exact ⟨_, List.mem_append_left _ (mem_details_settleAll (List.mem_map_of_mem member))⟩

end Ledger

namespace Declarations

open TypeTable Surface

variable {declarations : Declarations} {label : TypeId → Meaning} {ledger : Ledger} {file : Option String}
  {decls : List TypeDecl} {id : TypeId} {type : TypeDef} {symbol : Symbol} {detail : Detail}

/-- A type is what its declaration tells. -/
theorem Settled.detail_eq (settled : declarations.Settled label ledger) (told : (symbol, detail) ∈ ledger.details)
    (called : label id = .named symbol) (found : declarations.table.get? id = some type) :
    type.detail label = some detail := by
  obtain ⟨own, second, foundOwn, calledOwn, toldOwn⟩ := settled.tells _ told
  obtain rfl := settled.labelled.distinct own id (has_of_get? foundOwn) (has_of_get? found)
    (calledOwn.trans called.symm)
  obtain rfl := Option.some.inj (found.symm.trans foundOwn)
  exact toldOwn

/-- Only what is declared tells more than it is called. -/
theorem Settled.exists_detail (settled : declarations.Settled label (.ofProgram file decls))
    (names : ((distincts decls).map DistinctDecl.name).Nodup) (found : declarations.table.get? id = some type)
    (told : type.detail label = some detail) :
    ∃ symbol, label id = .named symbol ∧ (symbol, detail) ∈ (Ledger.ofProgram file decls).details := by
  have described := (settled.labelled.describes id type found).asks
  obtain ⟨symbol, called, declared, notParam⟩ : ∃ symbol, label id = .named symbol ∧ symbol.owner?.isSome ∧
      ∀ head : Symbol, symbol ∉ head.params := by
    cases type with
    | object declared =>
        obtain ⟨params, called, -⟩ := described
        exact ⟨_, called, rfl, fun head member => by cases head <;> simp [Symbol.params] at member⟩
    | distinct name underlying span =>
        exact ⟨_, described, rfl, fun head member => by cases head <;> simp [Symbol.params] at member⟩
    | _ => cases told
  obtain ⟨owner, owned⟩ := Option.isSome_iff_exists.mp declared
  obtain ⟨head, onRoster, same | inParams⟩ :=
    settled.owners symbol ⟨id, has_of_get? found, called⟩ owner owned
  · obtain rfl := same
    obtain ⟨own, member⟩ := Ledger.exists_detail names onRoster declared
    obtain rfl := Option.some.inj (told.symm.trans (settled.detail_eq member called found))
    exact ⟨symbol, called, member⟩
  · exact absurd inParams (notParam head)

end Declarations

namespace TypeTable

variable {table other : TypeTable} {label further : TypeId → Meaning} {entries : List (String × TypeId)}
  {roster : Roster}

theorem Enrolls.rename {rename : TypeId → TypeId} (enrolls : table.Enrolls label entries roster)
    (renames : table.Renames other rename) (called : ∀ id, table.Has id → further (rename id) = label id) :
    other.Enrolls further (entries.map fun entry => (entry.1, rename entry.2)) roster := by
  refine List.forall₂_map_left_iff.mpr (enrolls.imp fun entry symbol told => ?_)
  obtain ⟨named, has, means⟩ := told
  exact ⟨named, renames.bijective.mapsTo has, (called entry.2 has).trans means⟩

/-- The entries of a roster are told by their names. -/
theorem Enrolls.eq_map (enrolls : table.Enrolls label entries roster) (called : table.Called label) :
    entries = roster.map fun entry => (entry.1, Function.invFunOn label {id | table.Has id} (.named entry.2)) := by
  induction enrolls with
  | nil => rfl
  | @cons entry symbol entries roster told _ ih =>
      obtain ⟨named, has, means⟩ := told
      have answered : ∃ id ∈ {id | table.Has id}, label id = .named symbol.2 := ⟨entry.2, has, means⟩
      have same := called.distinct entry.2 _ has (Function.invFunOn_mem answered)
        (means.trans (Function.invFunOn_eq answered).symm)
      rw [List.map_cons, ← ih, ← named, ← same]

end TypeTable

namespace DeclareM

open Declarations Surface TypeTable

/-- The order of the declarations does not matter, as long as each distinct type sees the same of
the distinct types that it mentions: in both orders the same is reported, and the declared names
stand for the same types, but for their ids. -/
theorem declareAll_perm (file : Option String) {decls others : List TypeDecl} (perm : decls.Perm others)
    (fresh : (builtInNames ++ decls.map TypeDecl.name).Nodup) (alike : SeesAlike decls others) :
    ∃ types first types' second rename,
      (do declareBuiltIns; declareAll file decls) {} = .ok types first ∧
      (do declareBuiltIns; declareAll file others) {} = .ok types' second ∧
      first.diagnostics.Perm second.diagnostics ∧
      first.table.Renames second.table rename ∧
      types'.Perm (types.map fun entry => (entry.1, rename entry.2)) := by
  have fresh' : (builtInNames ++ others.map TypeDecl.name).Nodup :=
    ((perm.map _).append_left _).nodup_iff.mp fresh
  obtain ⟨types, first, label, run, settled, enrolls⟩ := declareAll_settles file decls fresh
  obtain ⟨types', second, further, run', settled', enrolls'⟩ := declareAll_settles file others fresh'
  have same := Ledger.ofProgram_sameEntries file perm fresh alike
  have meanings : first.table.meanings label = second.table.meanings further := by
    rw [settled.meanings, settled'.meanings]
    ext meaning
    exact same.made.mem_iff
  obtain ⟨rename, renames, called⟩ := settled.labelled.renames settled'.labelled meanings (by
    intro id own type definition found foundOwn called
    refine Option.ext fun detail => ⟨fun told => ?_, fun told => ?_⟩
    · obtain ⟨symbol, calledOwn, member⟩ :=
        settled'.exists_detail (Ledger.distinctNames_nodup fresh') foundOwn told
      exact settled.detail_eq (same.details.mem_iff.mpr member) (called.symm.trans calledOwn) found
    · obtain ⟨symbol, calledHere, member⟩ :=
        settled.exists_detail (Ledger.distinctNames_nodup fresh) found told
      exact settled'.detail_eq (same.details.mem_iff.mp member) (called.trans calledHere) foundOwn)
  refine ⟨types, first, types', second, rename, run, run', ?_, renames, ?_⟩
  · rw [settled.said, settled'.said]
    exact same.said
  · have renamed := TypeTable.Enrolls.rename enrolls renames called
    rw [Enrolls.eq_map renamed settled'.labelled.toCalled, Enrolls.eq_map enrolls' settled'.labelled.toCalled]
    exact (same.roster.symm.filter _).map _

/-- A list of `T`, over a length, and a distinct type over that list. -/
def listDecl : TypeDecl :=
  .object ⟨⟨1, 6⟩, "List", ["T"], none,
    [⟨⟨2, 3⟩, "next", .wrap ⟨2, 9⟩ .ref (.named ⟨2, 13⟩ "List" [.named ⟨2, 18⟩ "T" []])⟩,
      ⟨⟨3, 3⟩, "length", .named ⟨3, 11⟩ "Length" []⟩]⟩

@[inherit_doc listDecl]
def lengthDecl : TypeDecl := .distinct ⟨⟨5, 6⟩, "Length", .named ⟨5, 24⟩ "Int" []⟩

@[inherit_doc listDecl]
def namesDecl : TypeDecl :=
  .distinct ⟨⟨6, 6⟩, "Names", .tuple ⟨6, 23⟩ [.named ⟨6, 29⟩ "Length" [], .named ⟨6, 37⟩ "List" [.named ⟨6, 42⟩ "Int" []]]⟩

theorem declareAll_perm_list :
    ∃ types first types' second rename,
      (do declareBuiltIns; declareAll none [listDecl, lengthDecl, namesDecl]) {} = .ok types first ∧
      (do declareBuiltIns; declareAll none [lengthDecl, namesDecl, listDecl]) {} = .ok types' second ∧
      first.diagnostics.Perm second.diagnostics ∧
      first.table.Renames second.table rename ∧
      types'.Perm (types.map fun entry => (entry.1, rename entry.2)) :=
  declareAll_perm none (.trans (.swap _ _ _) (.cons _ (.swap _ _ _))) (by decide) (by decide)

/-- The order of the declarations never matters. -/
def OrderNeverMatters : Prop :=
  ∀ (file : Option String) (decls others : List TypeDecl), decls.Perm others →
    (builtInNames ++ decls.map TypeDecl.name).Nodup →
    ∃ types first types' second rename,
      (do declareBuiltIns; declareAll file decls) {} = .ok types first ∧
      (do declareBuiltIns; declareAll file others) {} = .ok types' second ∧
      (first.diagnostics.map fun found => (found.code, found.message)).Perm
        (second.diagnostics.map fun found => (found.code, found.message)) ∧
      first.table.Renames second.table rename ∧
      types'.Perm (types.map fun entry => (entry.1, rename entry.2))

/-- A distinct type and one over it. -/
def baseDecl : TypeDecl := .distinct ⟨⟨2, 1⟩, "B", .named ⟨2, 19⟩ "Int" []⟩

@[inherit_doc baseDecl]
def overDecl : TypeDecl := .distinct ⟨⟨1, 1⟩, "A", .named ⟨1, 19⟩ "B" []⟩

/-- How many diagnostics the declarations of a program give. -/
def reportCount (decls : List TypeDecl) : Option Nat :=
  match (do declareBuiltIns; declareAll none decls) {} with
  | .ok _ final => some final.diagnostics.length
  | .error _ _ => none

/-- A distinct type does not see those declared after it. -/
theorem not_orderNeverMatters : ¬ OrderNeverMatters := by
  intro never
  obtain ⟨types, first, types', second, rename, run, run', said, -⟩ :=
    never none [overDecl, baseDecl] [baseDecl, overDecl] (.swap _ _ _) (by decide)
  have reported : reportCount [overDecl, baseDecl] = some 1 := by decide +kernel
  have nothing : reportCount [baseDecl, overDecl] = some 0 := by decide +kernel
  simp only [reportCount, run, run', Option.some.injEq] at reported nothing
  have lengths := said.length_eq
  simp only [List.length_map] at lengths
  omega

end DeclareM
end LifecycleHooks

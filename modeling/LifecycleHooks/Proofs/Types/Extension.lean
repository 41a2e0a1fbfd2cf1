import LifecycleHooks.Proofs.Attempt
import LifecycleHooks.Types.Instantiation

/-!
# Growing type tables

Questions about types may make new types and keep what they worked out, but they
leave every type as it was.  A table extends another when it holds all types of the
other under the same ids and every body that the other had worked out.
-/

namespace LifecycleHooks
namespace TypeTable

/-- An instance of an object, as far as the table can tell. -/
def IsInstance (table : TypeTable) (type : TypeDef) : Prop :=
  ∃ head args, type = .applied head args ∧
    ∀ generic, table.get? head = some generic → ∃ object, generic = .object object

/-- A table that holds all types of another one under the same ids, together with
the bodies that were worked out there.  A body is worked out for instances only. -/
def Extends (table larger : TypeTable) : Prop :=
  ∀ id cell, table.cell? id = some cell →
    ∃ other, larger.cell? id = some other ∧ other.type = cell.type ∧
      (∀ body, cell.body = some body → other.body = some body) ∧
      (other.body = cell.body ∨ table.IsInstance cell.type)

/-- A cell of a type that was just made from its parts. -/
def IsNewCell (cell : Cell) : Prop :=
  cell.type.isStructural ∧ cell.depth = none ∧ cell.body = none

/-- A table that has further types, all made from their parts, behind those of
another one. -/
def Appends (table larger : TypeTable) : Prop :=
  ∃ more, larger.cells = table.cells ++ more ∧ ∀ cell ∈ more, IsNewCell cell

theorem Extends.get? {table larger : TypeTable} {id : TypeId} {type : TypeDef}
    (extends_ : table.Extends larger) (found : table.get? id = some type) :
    larger.get? id = some type := by
  obtain ⟨cell, atCell, rfl⟩ := Option.map_eq_some_iff.mp found
  obtain ⟨other, atOther, sameType, _⟩ := extends_ id cell atCell
  simp [TypeTable.get?, atOther, sameType]

instance : IsPreorder TypeTable Extends where
  refl _ _ cell found := ⟨cell, found, rfl, fun _ known => known, .inl rfl⟩
  trans table middle larger first second id cell found := by
    obtain ⟨other, atOther, otherType, otherBody, otherKept⟩ := first id cell found
    obtain ⟨last, atLast, lastType, lastBody, lastKept⟩ := second id other atOther
    refine ⟨last, atLast, lastType.trans otherType,
      fun body known => lastBody body (otherBody body known), ?_⟩
    rcases otherKept with same | isInstance
    · rcases lastKept with sameAgain | ⟨head, args, isApplied, object⟩
      · exact .inl (sameAgain.trans same)
      · exact .inr ⟨head, args, otherType ▸ isApplied,
          fun generic known => object generic (first.get? known)⟩
    · exact .inr isInstance

instance : IsPreorder TypeTable Appends where
  refl _ := ⟨#[], by simp, by simp⟩
  trans _ _ _ := by
    rintro ⟨more, first, firstNew⟩ ⟨others, second, secondNew⟩
    refine ⟨more ++ others, by simp [first, second], fun cell member => ?_⟩
    exact (Array.mem_append.mp member).elim (firstNew cell) (secondNew cell)

theorem Extends.refl (table : TypeTable) : table.Extends table :=
  refl_of Extends table

theorem Extends.trans {first second third : TypeTable} (earlier : first.Extends second)
    (later : second.Extends third) : first.Extends third :=
  trans_of Extends earlier later

theorem get_eq_ok {table : TypeTable} {id : TypeId} {type : TypeDef} :
    table.get id = .ok type ↔ table.get? id = some type := by
  unfold get
  cases table.get? id <;> simp

theorem Extends.get {table larger : TypeTable} {id : TypeId} {type : TypeDef}
    (extends_ : table.Extends larger) (found : table.get id = .ok type) :
    larger.get id = .ok type :=
  get_eq_ok.mpr (extends_.get? (get_eq_ok.mp found))

/-- Whatever one question answers, another one answers too. -/
def Confirms {Answer : Type} (question other : Except Fault Answer) : Prop :=
  ∀ answer, question = .ok answer → other = .ok answer

theorem Confirms.bind {First Second : Type} {question other : Except Fault First}
    {next follow : First → Except Fault Second} (first : Confirms question other)
    (second : ∀ answer, Confirms (next answer) (follow answer)) :
    Confirms (question >>= next) (other >>= follow) := by
  intro answer found
  cases asked : question with
  | error fault => simp [asked, Bind.bind, Except.bind] at found
  | ok middle =>
      rw [asked] at found
      rw [first middle asked]
      exact second middle answer found

/-- A question is stable when its answers stay the same in every larger table. -/
def IsStable {Answer : Type} (question : TypeTable → Except Fault Answer) : Prop :=
  ∀ table larger answer, table.Extends larger → question table = .ok answer →
    question larger = .ok answer

theorem stable_get (id : TypeId) : IsStable (·.get id) :=
  fun _ _ _ extends_ found => extends_.get found

theorem stable_pure {Answer : Type} (answer : Answer) : IsStable fun _ => pure answer :=
  fun _ _ _ _ found => found

theorem stable_throw {Answer : Type} (fault : Fault) :
    IsStable fun _ => (throw fault : Except Fault Answer) :=
  fun _ _ _ _ found => by cases found

theorem IsStable.bind {First Second : Type} {question : TypeTable → Except Fault First}
    {next : First → TypeTable → Except Fault Second} (first : IsStable question)
    (second : ∀ answer, IsStable (next answer)) :
    IsStable fun table => question table >>= fun answer => next answer table := by
  intro table larger answer extends_
  exact Confirms.bind (first table larger · extends_) (fun middle => (second middle table larger · extends_)) answer

theorem stable_head? (id : TypeId) : IsStable (·.head? id) := by
  refine (stable_get id).bind fun type => ?_
  cases type <;> exact stable_pure _

theorem stable_isNominal (id : TypeId) : IsStable (·.isNominal id) :=
  (stable_get id).bind fun _ => stable_pure _

theorem Extends.head? {table larger : TypeTable} (extends_ : table.Extends larger)
    {id : TypeId} {answer : Option TypeId} (known : table.head? id = .ok answer) :
    larger.head? id = .ok answer :=
  stable_head? id _ _ _ extends_ known

section Spelling

theorem Confirms.mapM {First Second : Type} {items : List First} {question other : First → Except Fault Second}
    (each : ∀ item, Confirms (question item) (other item)) :
    Confirms (items.mapM question) (items.mapM other) := by
  induction items with
  | nil => exact fun _ found => found
  | cons item items ih =>
      rw [List.mapM_cons, List.mapM_cons]
      exact (each item).bind fun _ => ih.bind fun _ _ found => found

theorem stable_ownName (id : TypeId) : IsStable (·.ownName id) := by
  refine (stable_get id).bind fun type => ?_
  cases type with
  | applied head args =>
      refine (stable_get head).bind fun generic => ?_
      cases generic with
      | object object => exact stable_pure _
      | _ => exact stable_throw _
  | _ => exact stable_pure _

theorem stable_declaredAt (id : TypeId) : IsStable (·.declaredAt id) := by
  refine (stable_get id).bind fun type => ?_
  cases type with
  | applied head args =>
      refine (stable_get head).bind fun generic => ?_
      cases generic with
      | object object => exact stable_pure _
      | _ => exact stable_throw _
  | _ => exact stable_pure _

theorem spellWithin_confirms {table larger : TypeTable} {depth more : Nat} (extends_ : table.Extends larger)
    (deeper : depth ≤ more) (id : TypeId) :
    Confirms (table.spellWithin depth id) (larger.spellWithin more id) := by
  induction depth generalizing more id with
  | zero => exact fun _ found => by cases found
  | succ depth ih =>
      obtain ⟨less, rfl⟩ : ∃ less, more = less + 1 := ⟨more - 1, by omega⟩
      have operand (id : TypeId) : Confirms (table.spellWithin depth id) (larger.spellWithin less id) :=
        ih (by omega) id
      have name (id : TypeId) : Confirms (table.ownName id) (larger.ownName id) :=
        fun answer => stable_ownName id table larger answer extends_
      have same {Answer : Type} (question : Except Fault Answer) : Confirms question question :=
        fun _ found => found
      refine Confirms.bind (fun _ => extends_.get) fun type => ?_
      cases type with
      | array length element => exact (operand element).bind fun _ => same _
      | tuple elements => exact (Confirms.mapM operand).bind fun _ => same _
      | wrap wrapper inner => cases wrapper <;> exact (operand inner).bind fun _ => same _
      | applied head args => exact (name id).bind fun _ => (Confirms.mapM operand).bind fun _ => same _
      | object object =>
          change Confirms (if object.params.isEmpty then _ else _) (if object.params.isEmpty then _ else _)
          split
          · exact same _
          · exact (Confirms.mapM name).bind fun _ => same _
      | _ => exact name id

theorem cell?_nth (table : TypeTable) (index : Nat) :
    table.cell? ((index : Int) + 1) = table.cells[index]? := by
  have positive : (1 : Int) ≤ (index : Int) + 1 := by omega
  have position : ((index : Int) + 1 - 1).toNat = index := by omega
  unfold TypeTable.cell?
  rw [if_pos positive, position]

theorem Extends.size_le {table larger : TypeTable} (extends_ : table.Extends larger) :
    table.size ≤ larger.size := by
  by_contra smaller
  have bound : larger.size < table.cells.size := Nat.lt_of_not_le smaller
  have found : table.cell? ((larger.size : Int) + 1) = some table.cells[larger.size] := by
    rw [table.cell?_nth]
    exact Array.getElem?_eq_getElem bound
  obtain ⟨other, inLarger, _⟩ := extends_ _ _ found
  unfold TypeTable.cell? at inLarger
  split at inLarger
  · obtain ⟨inside, _⟩ := Array.getElem?_eq_some_iff.mp inLarger
    have : ((larger.size : Int) + 1 - 1).toNat = larger.size := by omega
    have : larger.cells.size = larger.size := rfl
    omega
  · cases inLarger

/-- The spelling of a type does not change. -/
theorem stable_spell (id : TypeId) : IsStable (·.spell id) :=
  fun _ _ answer extends_ found =>
    spellWithin_confirms extends_ (Nat.add_le_add_right extends_.size_le 1) id answer found

end Spelling

theorem Appends.cell? {table larger : TypeTable} (appends : table.Appends larger)
    {id : TypeId} {cell : Cell} (found : table.cell? id = some cell) :
    larger.cell? id = some cell := by
  obtain ⟨more, equal, _⟩ := appends
  unfold TypeTable.cell? at found ⊢
  by_cases known : 1 ≤ id
  · rw [if_pos known] at found ⊢
    obtain ⟨bound, _⟩ := Array.getElem?_eq_some_iff.mp found
    rw [equal, Array.getElem?_append_left bound]
    exact found
  · rw [if_neg known] at found
    cases found

/-- A cell behind those of a table is a new one. -/
theorem Appends.isNewCell {table larger : TypeTable} (appends : table.Appends larger)
    {id : TypeId} {cell : Cell} (found : larger.cell? id = some cell)
    (unknown : table.cell? id = none) : IsNewCell cell := by
  obtain ⟨more, equal, new⟩ := appends
  unfold TypeTable.cell? at found unknown
  by_cases known : 1 ≤ id
  · rw [if_pos known] at found unknown
    rw [equal, Array.getElem?_append_right (Array.getElem?_eq_none_iff.mp unknown)] at found
    exact new cell (Array.mem_of_getElem? found)
  · rw [if_neg known] at found
    cases found

theorem Appends.extends_ {table larger : TypeTable} (appends : table.Appends larger) :
    table.Extends larger :=
  fun _ cell found => ⟨cell, appends.cell? found, rfl, fun _ known => known, .inl rfl⟩

theorem cell?_modifyCell (table : TypeTable) (id other : Int) (change : Cell → Cell) :
    (table.modifyCell id change).cell? other =
      if other = id then (table.cell? id).map change else table.cell? other := by
  unfold modifyCell cell?
  by_cases known : 1 ≤ id
  · by_cases positive : 1 ≤ other
    · have sameIndex : (id - 1).toNat = (other - 1).toNat ↔ other = id := by omega
      simp only [known, positive, if_true, Array.getElem?_modify, sameIndex]
      by_cases equal : other = id
      · subst other
        simp
      · simp [equal]
    · have differ : other ≠ id := by omega
      simp [positive, differ]
  · by_cases equal : other = id <;> simp [known, equal]

/-- Changing what a cell remembers leaves its type alone. -/
theorem extends_modifyCell (table : TypeTable) (id : TypeId) (change : Cell → Cell)
    (sameType : ∀ cell, (change cell).type = cell.type)
    (keepsBody : ∀ cell, table.cell? id = some cell →
      (change cell).body = cell.body ∨ cell.body = none ∧ table.IsInstance cell.type) :
    table.Extends (table.modifyCell id change) := by
  intro other cell found
  rw [cell?_modifyCell]
  by_cases equal : other = id
  · subst other
    refine ⟨change cell, by simp [found], sameType cell, ?_⟩
    rcases keepsBody cell found with same | ⟨unknown, isInstance⟩
    · exact ⟨fun body known => same.trans known, .inl same⟩
    · exact ⟨fun body known => by simp [unknown] at known, .inr isInstance⟩
  · exact ⟨cell, by simp [equal, found], rfl, fun _ known => known, .inl rfl⟩

end TypeTable

namespace TableM

open TypeTable Attempt

section Appending

theorem fetch_preserves {relation : TypeTable → TypeTable → Prop} [IsPreorder TypeTable relation]
    (id : TypeId) : (fetch id).Preserves relation :=
  leads_get.bind fun _ => leads_ofExcept _

theorem intern_appends {type : TypeDef} (structural : type.isStructural) :
    (intern type).Preserves Appends := by
  refine leads_get.bind fun table => ?_
  split
  · exact leads_pure _
  · refine preserves_iff.mpr fun table => ?_
    refine ⟨#[{ type := type }], by simp [add, finish, TypeTable.add], ?_⟩
    simp [IsNewCell, structural]

section Interning

variable {relation : TypeTable → TypeTable → Prop} [IsPreorder TypeTable relation]
  (interns : ∀ type : TypeDef, type.isStructural → (intern type).Preserves relation)

include interns

theorem instantiate_preserves (head : TypeId) (args : List TypeId) :
    (instantiate head args).Preserves relation := by
  refine (fetch_preserves head).bind fun type => leads_get.bind fun table =>
    (leads_ofExcept _).bind fun name => ?_
  split
  · exact leads_throw _
  · split
    · exact leads_throw _
    · exact interns _ rfl

theorem substituteWithin_preserves (mapping : Substitution) (depth : Nat) (id : TypeId) :
    (substituteWithin mapping depth id).Preserves relation := by
  induction depth generalizing id with
  | zero => exact leads_throw _
  | succ depth ih =>
      unfold substituteWithin
      refine (fetch_preserves id).bind fun type => ?_
      cases type with
      | array length element => exact (ih element).bind fun _ => interns _ rfl
      | tuple elements => exact (leads_mapM fun _ _ => ih _).bind fun _ => interns _ rfl
      | wrap wrapper inner => exact (ih inner).bind fun _ => interns _ rfl
      | applied head args =>
          exact (leads_mapM fun _ _ => ih _).bind fun _ => instantiate_preserves interns head _
      | _ => exact leads_pure _

theorem substitute_preserves (mapping : Substitution) (id : TypeId) :
    (substitute mapping id).Preserves relation := by
  unfold substitute
  split
  · exact leads_pure _
  · exact leads_get.bind fun _ => substituteWithin_preserves interns mapping _ id

theorem substituteBody_preserves (mapping : Substitution) (body : Body) :
    (substituteBody mapping body).Preserves relation := by
  refine (leads_mapM fun field _ => ?_).bind fun fields => ?_
  · exact (substitute_preserves interns mapping field.type).bind fun _ => leads_pure _
  · cases base : body.base with
    | none => exact (leads_pure _).bind fun _ => leads_pure _
    | some id =>
        exact ((substitute_preserves interns mapping id).bind fun _ => leads_pure _).bind
          fun _ => leads_pure _

end Interning

theorem instantiate_appends (head : TypeId) (args : List TypeId) :
    (instantiate head args).Preserves Appends :=
  instantiate_preserves (fun _ => intern_appends) head args

theorem substitute_appends (mapping : Substitution) (id : TypeId) :
    (substitute mapping id).Preserves Appends :=
  substitute_preserves (fun _ => intern_appends) mapping id

theorem substituteBody_appends (mapping : Substitution) (body : Body) :
    (substituteBody mapping body).Preserves Appends :=
  substituteBody_preserves (fun _ => intern_appends) mapping body

end Appending

section Extending

theorem fetch_eq_ok {id : TypeId} {table final : TypeTable} {type : TypeDef} :
    fetch id table = .ok type final ↔ table.get? id = some type ∧ final = table := by
  simp [fetch, get_eq_ok]

section Asking

variable {relation : TypeTable → TypeTable → Prop} [IsPreorder TypeTable relation]

theorem body_preserves (interns : ∀ type : TypeDef, type.isStructural → (intern type).Preserves relation)
    (remembers : ∀ table id body,
      relation table (table.modifyCell id fun cell => { cell with body := some body }))
    (id : TypeId) : (body id).Preserves relation := by
  refine (fetch_preserves id).bind fun type => ?_
  cases type with
  | applied head args =>
      refine leads_get.bind fun table => ?_
      split
      · exact leads_pure _
      · refine (fetch_preserves head).bind fun generic => ?_
        cases generic with
        | object object =>
            refine (substituteBody_preserves interns _ _).bind fun result => ?_
            exact (leads_modify fun table => remembers table id result).bind fun _ => leads_pure _
        | _ => exact leads_pure _
  | _ => exact leads_pure _

theorem constituents_preserves {id : TypeId} (asksBody : (body id).Preserves relation) :
    (constituents id).Preserves relation := by
  unfold constituents
  refine (fetch_preserves id).bind fun type => ?_
  cases type with
  | object object => exact asksBody.bind fun _ => leads_pure _
  | applied head args => exact asksBody.bind fun _ => leads_pure _
  | wrap wrapper inner => cases wrapper <;> exact leads_pure _
  | _ => exact leads_pure _

theorem nestingWithin_preserves
    (remembers : ∀ table id depth,
      relation table (table.modifyCell id fun cell => { cell with depth := some depth }))
    (depth : Nat) (id : TypeId) : (nestingWithin depth id).Preserves relation := by
  induction depth generalizing id with
  | zero => exact leads_throw _
  | succ depth ih =>
      unfold nestingWithin
      refine leads_get.bind fun table => ?_
      split
      · exact leads_pure _
      · refine (fetch_preserves id).bind fun type => ?_
        refine (leads_mapM fun _ _ => ih _).bind fun inner => ?_
        exact (leads_modify fun table => remembers table id _).bind fun _ => leads_pure _

theorem fieldTypeFrom_preserves (asksBody : ∀ id, (body id).Preserves relation) (name : String)
    (fuel : Nat) (seen : List TypeId) (id : TypeId) :
    (fieldTypeFrom name fuel seen id).Preserves relation := by
  induction fuel generalizing seen id with
  | zero => exact leads_throw _
  | succ fuel ih =>
      unfold fieldTypeFrom
      split
      · exact leads_pure _
      · refine (asksBody id).bind fun found => ?_
        split
        · exact leads_pure _
        · exact ih _ _
        · exact leads_pure _

end Asking

/-- Working out the body of an instance keeps it.  It is kept only where no body
was kept before, so no kept body changes. -/
theorem body_extends (id : TypeId) : (body id).Preserves Extends := by
  have fetches (id : TypeId) : (fetch id).Preserves Extends := fetch_preserves id
  refine preserves_iff.mpr fun table => ?_
  refine finish_bind (fun fault middle run => (fetches id).of_error run)
    fun type middle run => ?_
  obtain ⟨isType, unchanged⟩ := fetch_eq_ok.mp run
  subst middle
  obtain ⟨cell, atCell, sameType⟩ := Option.map_eq_some_iff.mp isType
  cases type with
  | applied head args =>
      change table.Extends (finish (get >>= _) table)
      rw [finish_get_bind]
      split
      · exact Extends.refl table
      · rename_i unknown
        refine finish_bind (fun fault middle run => (fetches head).of_error run)
          fun type middle run => ?_
        obtain ⟨isHead, unchanged⟩ := fetch_eq_ok.mp run
        subst middle
        cases type with
        | object object =>
            refine finish_bind (fun fault middle run => ?_) fun result middle run => ?_
            · exact ((substituteBody_appends _ _).of_error run).extends_
            · have appends := (substituteBody_appends _ _).of_ok run
              refine appends.extends_.trans (extends_modifyCell _ _ _ (fun _ => rfl) ?_)
              intro other found
              obtain rfl := Option.some.inj ((appends.cell? atCell).symm.trans found)
              refine .inr ⟨by simpa [atCell] using unknown, head, args, sameType, ?_⟩
              intro generic known
              exact ⟨object, Option.some.inj (known.symm.trans (appends.extends_.get? isHead))⟩
        | _ => exact Extends.refl _
  | _ => exact Extends.refl _

theorem constituents_extends (id : TypeId) : (constituents id).Preserves Extends :=
  constituents_preserves (body_extends id)

theorem nestingWithin_extends (depth : Nat) (id : TypeId) :
    (nestingWithin depth id).Preserves Extends :=
  nestingWithin_preserves (fun _ _ _ => extends_modifyCell _ _ _ (fun _ => rfl) fun _ _ => .inl rfl)
    depth id

theorem nesting_extends (id : TypeId) : (nesting id).Preserves Extends :=
  leads_get.bind fun _ => nestingWithin_extends _ id

end Extending

section Kept

theorem fetch_run_of_extends {id : TypeId} {table larger : TypeTable} {type : TypeDef}
    (found : table.get? id = some type) (extends_ : table.Extends larger) :
    fetch id larger = .ok type larger :=
  fetch_eq_ok.mpr ⟨extends_.get? found, rfl⟩

/-- A body that was asked for is kept: asked again, it is the same at once. -/
theorem body_kept {id : TypeId} {table later larger : TypeTable} {result : Body}
    (run : body id table = .ok result later) (extends_ : later.Extends larger) :
    body id larger = .ok result larger := by
  have extended := (body_extends id).of_ok run |>.trans extends_
  unfold body at run ⊢
  obtain ⟨type, middle, fetched, rest⟩ := bind_eq_ok.mp run
  obtain ⟨found, unchanged⟩ := fetch_eq_ok.mp fetched
  subst middle
  rw [bind_run_of_ok (fetch_run_of_extends found extended)]
  obtain ⟨cell, atCell, sameType⟩ := Option.map_eq_some_iff.mp found
  cases type with
  | applied head args =>
      simp only [get_bind_run] at rest ⊢
      have keeps {cell : Cell} (atCell : later.cell? id = some cell)
          (kept : cell.body = some result) : (larger.cell? id).bind Cell.body = some result := by
        obtain ⟨other, atOther, _, sameBody, _⟩ := extends_ id cell atCell
        simp [atOther, sameBody result kept]
      cases remembered : cell.body with
      | some known =>
          simp only [atCell, Option.bind_some, remembered] at rest
          obtain ⟨rfl, rfl⟩ := EStateM.Result.ok.inj rest
          rw [keeps atCell remembered]
          rfl
      | none =>
          simp only [atCell, Option.bind_some, remembered] at rest
          obtain ⟨generic, middle, fetched, rest⟩ := bind_eq_ok.mp rest
          obtain ⟨isHead, unchanged⟩ := fetch_eq_ok.mp fetched
          subst middle
          cases generic with
          | object object =>
              obtain ⟨body, substituted, substitutes, rest⟩ := bind_eq_ok.mp rest
              obtain ⟨rfl, rfl⟩ := EStateM.Result.ok.inj rest
              have appended := ((substituteBody_appends _ _).of_ok substitutes).cell? atCell
              have kept := cell?_modifyCell substituted id id fun cell =>
                { cell with body := some body }
              rw [if_pos rfl, appended, Option.map_some] at kept
              rw [keeps kept rfl]
              rfl
          | _ =>
              obtain ⟨rfl, rfl⟩ := EStateM.Result.ok.inj rest
              -- The head is no object, so nobody has worked out a body meanwhile.
              obtain ⟨other, atOther, _, _, same | ⟨_, _, isApplied, object⟩⟩ :=
                extended id cell atCell
              · simp only [atOther, Option.bind_some, same, remembered]
                rw [bind_run_of_ok (fetch_run_of_extends isHead extended)]
                rfl
              · obtain ⟨rfl, _⟩ := TypeDef.applied.inj (sameType.symm.trans isApplied)
                obtain ⟨_, impossible⟩ := object _ isHead
                cases impossible
  | _ =>
      obtain ⟨rfl, rfl⟩ := EStateM.Result.ok.inj rest
      rfl

/-- Constituents that were asked for are kept. -/
theorem constituents_kept {id : TypeId} {table later larger : TypeTable} {slots : List Slot}
    (run : constituents id table = .ok slots later) (extends_ : later.Extends larger) :
    constituents id larger = .ok slots larger := by
  have extended := (constituents_extends id).of_ok run |>.trans extends_
  unfold constituents at run ⊢
  obtain ⟨type, middle, fetched, rest⟩ := bind_eq_ok.mp run
  obtain ⟨found, unchanged⟩ := fetch_eq_ok.mp fetched
  subst middle
  rw [bind_run_of_ok (fetch_run_of_extends found extended)]
  have asksBody (rest : (do return (← body id).slots : TableM (List Slot)) table =
      .ok slots later) : (do return (← body id).slots : TableM (List Slot)) larger =
        .ok slots larger := by
    obtain ⟨result, middle, asked, rest⟩ := bind_eq_ok.mp rest
    obtain ⟨rfl, rfl⟩ := EStateM.Result.ok.inj rest
    rw [bind_run_of_ok (body_kept asked extends_)]
    rfl
  cases type with
  | object object => exact asksBody rest
  | applied head args => exact asksBody rest
  | wrap wrapper inner =>
      cases wrapper <;>
        (obtain ⟨rfl, rfl⟩ := EStateM.Result.ok.inj rest; rfl)
  | _ =>
      obtain ⟨rfl, rfl⟩ := EStateM.Result.ok.inj rest
      rfl

end Kept
end TableM
end LifecycleHooks

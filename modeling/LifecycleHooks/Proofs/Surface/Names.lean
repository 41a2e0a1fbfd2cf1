import LifecycleHooks.Proofs.Surface.Acceptance

/-!
# The names of a program

The types, the fields and the type parameters of a program that was read have names that
lexed as names: runs of letters, digits and underscores that start with no digit.
-/

namespace LifecycleHooks.Surface

/-- A text that the terminal of names matches. -/
def IsName (text : String) : Prop := Terminal.name.Matches text.toList

theorem IsName.characters {text : String} (isName : IsName text) : ∀ next ∈ text.toList, isNamePart next = true := by
  unfold IsName at isName
  generalize text.toList = characters at isName
  cases isName with
  | name start all =>
      refine List.forall_mem_cons.mpr ⟨?_, all⟩
      simp only [isNameStart, isNamePart, Char.isAlphanum, Bool.or_eq_true] at start ⊢
      exact start.imp_left .inl

/-- A declared object whose type parameters and fields have names, as it has itself. -/
structure ObjectDecl.IsNamed (decl : ObjectDecl) : Prop where
  name : IsName decl.name
  typeParams : ∀ param ∈ decl.typeParams, IsName param
  fields : ∀ member ∈ decl.fields, IsName member.name

/-- A program in which everything that is declared has a name. -/
structure Program.IsNamed (program : Program) : Prop where
  objects : ∀ decl, .object decl ∈ program.types → decl.IsNamed
  distincts : ∀ decl, .distinct decl ∈ program.types → IsName decl.name
  typeParams : ∀ proc ∈ program.procs, ∀ param ∈ proc.typeParams, IsName param

/-- Name tokens hold names. -/
theorem Lexes.isName {place : Position} {text : List Char} {tokens : List Token} (lexes : Lexes place text tokens)
    {word : Word} (written : word.name ∈ tokens) : IsName word.text := by
  induction lexes with
  | done => cases written
  | @piece place terminal taken rest tokens longest next ih =>
      rcases List.mem_append.mp written with here | behind
      · cases terminal <;> simp [Terminal.lexeme?, optionTokens, Word.name] at here
        rw [IsName, here.1, String.toList_ofList]
        exact longest.fits
      · exact ih behind

section Lists

variable {Item : Type} {written : Item → List Token} {token : Token}

theorem mem_commaTokens {items : List (Position × Item)} {entry : Position × Item} (member : entry ∈ items)
    (isToken : token ∈ written entry.2) : token ∈ commaTokens written items := by
  induction items with
  | nil => cases member
  | cons first others ih =>
      refine List.mem_cons_of_mem _ (List.mem_append.mpr ?_)
      rcases List.mem_cons.mp member with rfl | behind
      · exact .inl isToken
      · exact .inr (ih behind)

theorem Separated.mem_tokens {list : Separated Item} {item : Item} (member : item ∈ list.items)
    (isToken : token ∈ written item) : token ∈ list.tokens written := by
  rcases List.mem_cons.mp member with rfl | behind
  · exact List.mem_append_left _ isToken
  · obtain ⟨entry, isEntry, rfl⟩ := List.mem_map.mp behind
    exact List.mem_append_right _ (mem_commaTokens isEntry isToken)

end Lists

namespace Derivation

theorem TypeParams.mem_tokens {params : Option TypeParams} {param : String} (member : param ∈ namesOf params) :
    ∃ word : Word, word.text = param ∧ word.name ∈ optionTokens TypeParams.tokens params := by
  cases params with
  | none => cases member
  | some params =>
      obtain ⟨word, isWord, rfl⟩ := List.mem_map.mp member
      refine ⟨word, rfl, List.mem_cons_of_mem _ (List.mem_append_left _ ?_)⟩
      exact Separated.mem_tokens isWord (List.mem_singleton_self _)

theorem TypeDef.name_mem_tokens (decl : TypeDef) : decl.name.name ∈ decl.tokens :=
  List.mem_cons_of_mem _ List.mem_cons_self

theorem TypeDef.param_mem_tokens {decl : TypeDef} {param : String} (member : param ∈ TypeParams.namesOf decl.params) :
    ∃ word : Word, word.text = param ∧ word.name ∈ decl.tokens := by
  obtain ⟨word, isWord, written⟩ := TypeParams.mem_tokens member
  exact ⟨word, isWord, List.mem_cons_of_mem _ (List.mem_cons_of_mem _ (List.mem_append_left _ written))⟩

theorem TypeDef.field_mem_tokens {decl : TypeDef} {place opening closing : Position}
    {base : Option (Position × TypeRef)} {fields : Option (Separated Member)} {comma : Option Position}
    (isObject : decl.body = .object place base opening fields comma closing) {member : Member}
    (isField : member ∈ itemsOf fields) : member.name.name ∈ decl.tokens := by
  cases fields with
  | none => cases isField
  | some list =>
      have written : member.name.name ∈ list.tokens Member.tokens := Separated.mem_tokens isField List.mem_cons_self
      simp [TypeDef.tokens, isObject, TypeBody.tokens, written]

theorem ProcDef.param_mem_tokens {decl : ProcDef} {param : String}
    (member : param ∈ TypeParams.namesOf decl.typeParams) :
    ∃ word : Word, word.text = param ∧ word.name ∈ decl.tokens := by
  obtain ⟨word, isWord, written⟩ := TypeParams.mem_tokens member
  exact ⟨word, isWord, List.mem_cons_of_mem _ (List.mem_cons_of_mem _ (List.mem_append_left _ written))⟩

theorem Program.type_mem_tokens {program : Program} {decl : TypeDecl} (member : decl ∈ program.tree.types) :
    ∃ written : TypeDef, written.tree = decl ∧ written.tokens ⊆ program.tokens := by
  obtain ⟨item, isItem, isDecl⟩ := List.mem_filterMap.mp member
  cases item with
  | type written =>
    exact ⟨written, Option.some.inj isDecl, fun token isToken => List.mem_flatMap.mpr ⟨_, isItem, isToken⟩⟩
  | proc => cases isDecl

theorem Program.proc_mem_tokens {program : Program} {proc : ProcDecl} (member : proc ∈ program.tree.procs) :
    ∃ written : ProcDef, written.tree = proc ∧ written.tokens ⊆ program.tokens := by
  obtain ⟨item, isItem, isProc⟩ := List.mem_filterMap.mp member
  cases item with
  | type => cases isProc
  | proc written =>
    exact ⟨written, Option.some.inj isProc, fun token isToken => List.mem_flatMap.mpr ⟨_, isItem, isToken⟩⟩

/-- Everything that a spelled program declares has a name. -/
theorem Program.Spells.isNamed {program : Program} {source : String} (spells : program.Spells source) :
    program.tree.IsNamed where
  objects decl member := by
    obtain ⟨written, isDecl, inside⟩ := Program.type_mem_tokens member
    unfold TypeDef.tree at isDecl
    split at isDecl
    case h_2 => cases isDecl
    case h_1 place base opening fields comma closing isObject =>
      obtain rfl := TypeDecl.object.inj isDecl
      refine ⟨spells.isName (inside written.name_mem_tokens), fun param isParam => ?_, fun member isField => ?_⟩
      · obtain ⟨word, rfl, isWord⟩ := TypeDef.param_mem_tokens isParam
        exact spells.isName (inside isWord)
      · obtain ⟨field, isWritten, rfl⟩ := List.mem_map.mp isField
        exact spells.isName (inside (TypeDef.field_mem_tokens isObject isWritten))
  distincts decl member := by
    obtain ⟨written, isDecl, inside⟩ := Program.type_mem_tokens member
    unfold TypeDef.tree at isDecl
    split at isDecl
    case h_1 => cases isDecl
    case h_2 =>
      obtain rfl := TypeDecl.distinct.inj isDecl
      exact spells.isName (inside written.name_mem_tokens)
  typeParams proc member param isParam := by
    obtain ⟨written, rfl, inside⟩ := Program.proc_mem_tokens member
    obtain ⟨word, rfl, isWord⟩ := ProcDef.param_mem_tokens isParam
    exact spells.isName (inside isWord)

end Derivation

/-- Everything that a program which was read declares has a name. -/
theorem isNamed_of_parse {source : String} {program : Program} (parsed : parse source = .ok program) :
    program.IsNamed := by
  obtain ⟨derivation, spells, -, rfl⟩ := parse_eq_ok.mp parsed
  exact spells.isNamed

end LifecycleHooks.Surface

import LifecycleHooks.Proofs.Surface.Reading

/-!
# Reading types and their declarations

The readers of spelled types, of members and of type declarations invert the tokens of their
derivations.
-/

namespace LifecycleHooks.Surface.Derivation

open LifecycleHooks.Surface.Parser

namespace TypeRef

theorem readWithin_sound (depth : Nat) : Sound (readWithin depth) tokens := by
  induction depth with
  | zero => exact .refuse
  | succ depth ih =>
      refine .peek fun found => ?_
      split
      case h_1 name place =>
        refine .skip (.bind (accept_sound _) fun opening? => ?_)
        cases opening? with
        | none => exact .pure (by simp [tokens, Word.name])
        | some opening =>
            exact .bind (separated_sound ih) fun args => .bind (expect_sound _) fun closing =>
              .pure (by simp [tokens_generic, Word.name])
      case h_2 place =>
        exact .skip (.bind (expect_sound _) fun opening => .bind expectInteger_sound fun length =>
          .bind (expect_sound _) fun comma => .bind ih fun element => .bind (expect_sound _) fun closing =>
            .pure (by simp [tokens]))
      case h_3 place =>
        exact .skip (.bind (expect_sound _) fun opening => .bind ih fun element =>
          .bind (expect_sound _) fun closing => .pure (by simp [tokens]))
      case h_4 place =>
        exact .skip (.bind (expect_sound _) fun opening => .bind (separated_sound ih) fun elements =>
          .bind (expect_sound _) fun closing => .pure (by simp [tokens_tuple]))
      case h_5 place | h_6 place | h_7 place | h_8 place =>
        exact .skip (.bind ih fun inner => .pure (by simp [tokens]))
      case h_9 => exact .of .refuse

theorem read_sound : Sound read tokens :=
  .bounded fun size => readWithin_sound (size + 1)

theorem readWithin_reads {depth : Nat} {type : TypeRef} (enough : type.tokens.length ≤ depth) :
    Reads (readWithin depth) tokens [.mark .leftBracket] type := by
  induction depth generalizing type with
  | zero => cases type <;> simp [tokens] at enough
  | succ depth ih =>
      -- each element of a list is shorter than the list
      have elements (list : Separated TypeRef) (short : (list.tokens tokens).length ≤ depth) :
          Reads (separated (readWithin depth)) (Separated.tokens tokens) [.mark .comma, .mark .leftBracket] list :=
        separated_reads (by simp) fun type member => ih (Nat.le_trans (Separated.length_written_le member) short)
      intro rest follows
      unfold readWithin
      cases type with
      | named name => simp [tokens, Word.name, accept_bind_of_stops _ follows]
      | generic name opening args closing =>
          have list := elements args (by simp [tokens_generic] at enough; omega)
          simp [tokens_generic, Word.name, list.bind]
      | array place opening length comma element closing =>
          have inner : Reads _ _ _ element := ih (by simp [tokens] at enough; omega)
          simp [tokens, inner.bind]
      | seq place opening element closing =>
          have inner : Reads _ _ _ element := ih (by simp [tokens] at enough; omega)
          simp [tokens, inner.bind]
      | tuple place opening list closing =>
          have list := elements list (by simp [tokens_tuple] at enough; omega)
          simp [tokens_tuple, list.bind]
      | ref place inner | ptr place inner | var place inner | lent place inner =>
          have inner := ih (by simpa [tokens] using enough)
          simp [tokens, inner.map _ follows]

theorem read_reads (type : TypeRef) : Reads read tokens [.mark .leftBracket] type :=
  .bounded fun _ enough => readWithin_reads (Nat.le_succ_of_le enough)

end TypeRef

theorem Member.read_sound : Sound Member.read Member.tokens :=
  .bind expectName_sound fun name => .bind (expect_sound _) fun colon => .bind TypeRef.read_sound fun type =>
    .pure (by simp [Member.tokens])

theorem Member.read_reads (member : Member) : Reads Member.read Member.tokens [.mark .leftBracket] member := by
  intro rest follows
  have type := TypeRef.read_reads member.type
  unfold Member.read
  simp [Member.tokens, type.map _ follows]

@[simp]
theorem Member.head?_tokens (member : Member) : member.tokens.head? = some member.name.name := by
  simp [Member.tokens]

theorem TypeParams.read?_sound : Sound TypeParams.read? (optionTokens TypeParams.tokens) := by
  refine .bind (accept_sound _) fun opening? => ?_
  cases opening? with
  | none => exact .pure rfl
  | some opening =>
      exact .bind (separated_sound expectName_sound) fun names => .bind (expect_sound _) fun closing =>
        .pure (by simp [TypeParams.tokens])

theorem TypeParams.read?_reads (params : Option TypeParams) :
    Reads TypeParams.read? (optionTokens TypeParams.tokens) [.mark .leftBracket] params := by
  intro rest follows
  unfold TypeParams.read?
  cases params with
  | none => simp [accept_bind_of_stops _ follows]
  | some params =>
      have name (word : Word) : Reads expectName (fun name => [name.name]) [] word :=
        fun _ _ => expectName_eq_ok.mpr rfl
      have names := separated_reads (by simp) fun word (_ : word ∈ params.names.items) => name word
      simp [TypeParams.tokens, names.bind]

namespace TypeBody

/-- The tokens of fields, each behind its comma, and of the comma that may stand behind them. -/
def fieldTokens (answer : List (Position × Member) × Option Position) : List Token :=
  commaTokens Member.tokens answer.1 ++ optionTokens (fun place => [⟨.mark .comma, place⟩]) answer.2

theorem readFields_sound (fuel : Nat) : Sound (readFields fuel) fieldTokens := by
  induction fuel with
  | zero => exact .pure rfl
  | succ fuel ih =>
      refine .bind (accept_sound _) fun comma? => ?_
      cases comma? with
      | none => exact .pure rfl
      | some comma =>
          refine .peekLexeme fun found => ?_
          split
          case isTrue => exact .pure rfl
          case isFalse =>
            exact .bind Member.read_sound fun next => .bind ih fun others =>
              .pure (by simp [fieldTokens, commaTokens])

/-- A comma is the last one when the closing brace stands behind it. -/
theorem readFields_reads {fields : List (Position × Member)} {comma : Option Position} {fuel : Nat}
    (enough : fields.length < fuel) (closing : Position) (rest : List Token) :
    readFields fuel (fieldTokens (fields, comma) ++ ⟨.mark .rightBrace, closing⟩ :: rest) =
      .ok ((fields, comma), ⟨.mark .rightBrace, closing⟩ :: rest) := by
  induction fuel generalizing fields with
  | zero => omega
  | succ fuel ih =>
      unfold readFields
      cases fields with
      | nil =>
          cases comma with
          | none => simp [fieldTokens, commaTokens, accept_bind_of_stops]
          | some comma => simp [fieldTokens, commaTokens]
      | cons entry others =>
          have head := Member.read_reads entry.2
          have ends : Stops [.mark .leftBracket]
              (fieldTokens (others, comma) ++ ⟨.mark .rightBrace, closing⟩ :: rest) := by
            cases others <;> cases comma <;> simp [fieldTokens, commaTokens]
          have split : fieldTokens (entry :: others, comma) ++ ⟨.mark .rightBrace, closing⟩ :: rest =
              ⟨.mark .comma, entry.1⟩ :: (entry.2.tokens ++
                (fieldTokens (others, comma) ++ ⟨.mark .rightBrace, closing⟩ :: rest)) := by
            simp [fieldTokens, commaTokens]
          rw [split]
          simp [Word.name, head.bind _ ends, map_of_ok _ (ih (by simpa using enough))]

/-- The tokens of an object up to its opening brace. -/
def objectTokens (place : Position) (base : Option (Position × TypeRef)) (opening : Position) : List Token :=
  ⟨.keyword .object, place⟩ :: (optionTokens (behindTokens TypeRef.tokens (.keyword .of)) base ++
    [⟨.mark .leftBrace, opening⟩])

theorem readObject_sound (place : Position) (base : Option (Position × TypeRef)) (opening : Position) :
    SoundAfter (objectTokens place base opening) (readObject place base opening) tokens := by
  refine .peekLexeme fun found => ?_
  split
  case h_1 | h_2 =>
    exact .bind (accept_sound _) fun comma => .bind (expect_sound _) fun closing =>
      .pure (by simp [objectTokens, tokens])
  case h_3 =>
    exact .bind Member.read_sound fun first => .bind (.bounded readFields_sound) fun others =>
      .bind (expect_sound _) fun closing =>
        .pure (by simp [objectTokens, tokens, Separated.tokens, fieldTokens])

theorem readObject_reads (place : Position) (base : Option (Position × TypeRef)) (opening : Position)
    (fields : Option (Separated Member)) (comma : Option Position) (closing : Position) (rest : List Token) :
    readObject place base opening (optionTokens (Separated.tokens Member.tokens) fields ++
        (optionTokens (fun place => [⟨.mark .comma, place⟩]) comma ++ ⟨.mark .rightBrace, closing⟩ :: rest)) =
      .ok (.object place base opening fields comma closing, rest) := by
  unfold readObject
  cases fields with
  | none => cases comma <;> simp [accept_bind_of_stops]
  | some list =>
      obtain ⟨first, others⟩ := list
      have head := Member.read_reads first
      have ends : Stops [.mark .leftBracket]
          (fieldTokens (others, comma) ++ ⟨.mark .rightBrace, closing⟩ :: rest) := by
        cases others <;> cases comma <;> simp [fieldTokens, commaTokens]
      have split : optionTokens (Separated.tokens Member.tokens) (some ⟨first, others⟩) ++
          (optionTokens (fun place => [⟨.mark .comma, place⟩]) comma ++ ⟨.mark .rightBrace, closing⟩ :: rest) =
          first.tokens ++ (fieldTokens (others, comma) ++ ⟨.mark .rightBrace, closing⟩ :: rest) := by
        simp [Separated.tokens, fieldTokens]
      have more : bounded readFields (fieldTokens (others, comma) ++ ⟨.mark .rightBrace, closing⟩ :: rest) =
          .ok ((others, comma), ⟨.mark .rightBrace, closing⟩ :: rest) := by
        refine readFields_reads ?_ closing rest
        have := length_le_commaTokens Member.tokens others
        simp only [fieldTokens, List.length_append, List.length_cons]
        omega
      rw [split]
      simp [Word.name, head.bind _ ends, bind_of_ok more]

theorem read_sound : Sound read tokens := by
  refine .peek fun found => ?_
  split
  case h_1 place =>
    refine .skip (.bind (after?_sound TypeRef.read_sound) fun base => .bind (expect_sound _) fun opening => ?_)
    simpa [objectTokens] using readObject_sound place base opening
  case h_2 place => exact .skip (.bind TypeRef.read_sound fun underlying => .pure (by simp [tokens]))
  case h_3 => exact .of .refuse

theorem read_reads (body : TypeBody) : Reads read tokens [.mark .leftBracket] body := by
  intro rest follows
  unfold read
  cases body with
  | object place base opening fields comma closing =>
      have base := after?_reads (.keyword .of) fun entry (_ : entry ∈ base) => TypeRef.read_reads entry.2
      simp [tokens, base.bind, readObject_reads]
  | distinct place underlying =>
      have type := TypeRef.read_reads underlying
      simp [tokens, type.map _ follows]

end TypeBody

theorem TypeDef.read_sound (place : Position) :
    SoundAfter [⟨.keyword .type, place⟩] (TypeDef.read place) TypeDef.tokens :=
  .bind expectName_sound fun name => .bind TypeParams.read?_sound fun params => .bind (expect_sound _) fun equal =>
    .bind TypeBody.read_sound fun body => .pure (by simp [TypeDef.tokens])

theorem TypeDef.read_reads (decl : TypeDef) :
    Reads (TypeDef.read decl.place) (fun decl => decl.tokens.tail) [.mark .leftBracket] decl := by
  intro rest follows
  have params := TypeParams.read?_reads decl.params
  have body := TypeBody.read_reads decl.body
  unfold TypeDef.read
  simp [TypeDef.tokens, params.bind, body.map _ follows]

end LifecycleHooks.Surface.Derivation

import LifecycleHooks.Proofs.Surface.ProgramReading

/-!
# Prefixes that can be continued

A list of tokens is viable when some program begins with it.  A reader that refuses a token has
read the beginning of something that its rule derives.  This is shown along its text, as its
soundness is, so what is read of a program before a refusal is viable.
-/

namespace LifecycleHooks.Surface

namespace Parser

variable {Item Result : Type}

/-- Something that is written begins with these tokens. -/
def Begun (written : Item → List Token) (tokens : List Token) : Prop := ∃ item, tokens <+: written item

theorem Begun.front {written : Item → List Token} {tokens front : List Token} (begun : Begun written tokens)
    (before : front <+: tokens) : Begun written front :=
  begun.imp fun _ onwards => before.trans onwards

theorem begun_nil {written : Item → List Token} (item : Item) : Begun written [] :=
  ⟨item, List.nil_prefix⟩

/-- The tokens that were `read` before begin something that is written, and so they do together
with those that a parser has read itself when it refuses. -/
structure ViableAfter (read : List Token) (parser : Parser Item) (written : Item → List Token) : Prop where
  begun : Begun written read
  refused : ∀ ⦃tokens unread⦄, parser tokens = .error unread →
    ∃ taken, tokens = taken ++ unread ∧ Begun written (read ++ taken)

/-- What a parser has read when it refuses begins something that is written. -/
abbrev Viable (parser : Parser Item) (written : Item → List Token) : Prop :=
  ViableAfter [] parser written

/-- A parser is viable on tokens that begin with a token that was looked at, or on no tokens if
there was none. -/
structure ViableOn (found : Option Token) (read : List Token) (parser : Parser Item)
    (written : Item → List Token) : Prop where
  begun : Begun written read
  refused : ∀ ⦃tokens unread⦄, tokens.head? = found → parser tokens = .error unread →
    ∃ taken, tokens = taken ++ unread ∧ Begun written (read ++ taken)

variable {parser : Parser Item} {written : Item → List Token} {result : Result → List Token} {read : List Token}
  {token : Token} {found : Option Token} {lexeme : Lexeme}

theorem ViableAfter.pure {item : Item} (same : read = written item) : ViableAfter read (pure item) written :=
  ⟨⟨item, same ▸ List.prefix_rfl⟩, fun _ _ run => by simp at run⟩

theorem ViableAfter.refuse (begun : Begun written read) : ViableAfter read refuse written :=
  ⟨begun, fun tokens _ run => ⟨[], Except.error.inj run, by rwa [List.append_nil]⟩⟩

/-- The first of two parsers goes on with the last of the tokens that were read before, and all
that it answers with is written by at least those. -/
theorem ViableAfter.bindFrom {next : Item → Parser Result} {before front : List Token} (split : before = front ++ read)
    (sound : SoundAfter read parser written) (longer : ∀ item, read.length ≤ (written item).length)
    (first : ViableAfter read parser written)
    (second : ∀ item, ViableAfter (front ++ written item) (next item) result) :
    ViableAfter before (parser >>= next) result := by
  have continued {tokens : List Token} (begun : Begun written tokens) : Begun result (front ++ tokens) := by
    obtain ⟨item, onwards⟩ := begun
    exact (second item).begun.front ((List.prefix_append_right_inj front).mpr onwards)
  refine ⟨split ▸ continued first.begun, fun tokens unread run => ?_⟩
  rw [bind_run] at run
  split at run
  case h_1 item behind ran =>
    -- The first parser has read the tokens of its item but for those that were read before.
    have taken : read ++ tokens = written item ++ behind := sound ran
    obtain ⟨own, own_eq⟩ : read <+: written item :=
      List.prefix_of_prefix_length_le (List.prefix_append read tokens) (taken ▸ List.prefix_append _ behind)
        (longer item)
    rw [← own_eq, List.append_assoc, List.append_cancel_left_eq] at taken
    obtain ⟨more, rfl, begun⟩ := (second item).refused run
    exact ⟨own ++ more, by rw [taken, List.append_assoc], by simpa [split, ← own_eq] using begun⟩
  case h_2 unread' ran =>
    obtain rfl := Except.error.inj run
    obtain ⟨taken, rfl, begun⟩ := first.refused ran
    exact ⟨taken, rfl, by simpa [split] using continued begun⟩

theorem ViableAfter.bind {next : Item → Parser Result} (sound : Sound parser written) (first : Viable parser written)
    (second : ∀ item, ViableAfter (read ++ written item) (next item) result) :
    ViableAfter read (parser >>= next) result :=
  .bindFrom (List.append_nil read).symm sound (fun _ => Nat.zero_le _) first second

theorem ViableAfter.bounded {parser : Nat → Parser Item} (viable : ∀ size, ViableAfter read (parser size) written) :
    ViableAfter read (bounded parser) written :=
  ⟨(viable 0).begun, fun tokens _ run => (viable tokens.length).refused run⟩

theorem ViableAfter.peek {next : Option Token → Parser Item}
    (viable : ∀ found, ViableOn found read (next found) written) : ViableAfter read (peek >>= next) written :=
  ⟨(viable none).begun, fun tokens _ run => (viable tokens.head?).refused rfl run⟩

theorem ViableAfter.peekLexeme {next : Option Lexeme → Parser Item}
    (viable : ∀ found, ViableAfter read (next found) written) : ViableAfter read (peekLexeme >>= next) written :=
  ⟨(viable none).begun, fun _ _ run => (viable _).refused run⟩

theorem ViableOn.of (viable : ViableAfter read parser written) : ViableOn found read parser written :=
  ⟨viable.begun, fun _ _ _ run => viable.refused run⟩

theorem ViableOn.skip {next : Unit → Parser Item} (viable : ViableAfter (read ++ [token]) (next ()) written) :
    ViableOn (some token) read (skip >>= next) written := by
  refine ⟨viable.begun.front (List.prefix_append _ _), fun tokens unread first run => ?_⟩
  obtain ⟨tail, rfl⟩ := List.head?_eq_some_iff.mp first
  obtain ⟨taken, rest, begun⟩ := viable.refused run
  exact ⟨token :: taken, by simpa using rest, by simpa using begun⟩

section Combinators

theorem expect_viable (lexeme : Lexeme) : Viable (expect lexeme) (fun place => [⟨lexeme, place⟩]) := by
  refine .peek fun found => ?_
  cases found with
  | none => exact .of (.refuse (begun_nil .start))
  | some token =>
      dsimp only
      split
      case isTrue same => exact .skip (.pure (by simp [← same]))
      case isFalse => exact .of (.refuse (begun_nil .start))

theorem expectName_viable : Viable expectName (fun word => [word.name]) := by
  refine .peek fun found => ?_
  split
  case h_1 text place => exact .skip (.pure rfl)
  case h_2 => exact .of (.refuse (begun_nil ⟨"", .start⟩))

theorem expectInteger_viable : Viable expectInteger (fun word => [word.integer]) := by
  refine .peek fun found => ?_
  split
  case h_1 digits place => exact .skip (.pure rfl)
  case h_2 => exact .of (.refuse (begun_nil ⟨"", .start⟩))

theorem accept_viable (lexeme : Lexeme) : Viable (accept lexeme) (optionTokens fun place => [⟨lexeme, place⟩]) := by
  refine .peek fun found => ?_
  cases found with
  | none => exact .of (.pure rfl)
  | some token =>
      dsimp only
      split
      case isTrue same => exact .skip (.pure (by simp [← same]))
      case isFalse => exact .of (.pure rfl)

theorem ViableAfter.expect {next : Position → Parser Result}
    (viable : ∀ place, ViableAfter (read ++ [⟨lexeme, place⟩]) (next place) result) :
    ViableAfter read (expect lexeme >>= next) result :=
  .bind (expect_sound lexeme) (expect_viable lexeme) viable

theorem ViableAfter.expectName {next : Word → Parser Result}
    (viable : ∀ word, ViableAfter (read ++ [word.name]) (next word) result) :
    ViableAfter read (expectName >>= next) result :=
  .bind expectName_sound expectName_viable viable

/-- What follows a lexeme depends on whether it is there. -/
theorem ViableAfter.accept {next : Option Position → Parser Result} (absent : ViableAfter read (next none) result)
    (present : ∀ place, ViableAfter (read ++ [⟨lexeme, place⟩]) (next (some place)) result) :
    ViableAfter read (accept lexeme >>= next) result := by
  refine .bind (accept_sound lexeme) (accept_viable lexeme) fun place? => ?_
  cases place? with
  | none => simpa using absent
  | some place => exact present place

variable (sound : Sound parser written) (viable : Viable parser written)

include sound viable

theorem after?_viable : Viable (after? lexeme parser) (optionTokens (behindTokens written lexeme)) :=
  .accept (.pure rfl) fun place => .bind sound viable fun item => .pure (by simp [behindTokens])

theorem commaItems_viable (fuel : Nat) : Viable (commaItems parser fuel) (commaTokens written) := by
  induction fuel with
  | zero => exact .pure rfl
  | succ fuel ih =>
      exact .accept (.pure rfl) fun comma => .bind sound viable fun next =>
        .bind (commaItems_sound sound fuel) ih fun others => .pure (by simp [commaTokens])

theorem separated_viable : Viable (separated parser) (Separated.tokens written) :=
  .bind sound viable fun first => .bind (.bounded (commaItems_sound sound)) (.bounded (commaItems_viable sound viable))
    fun others => .pure (by simp [Separated.tokens])

theorem listed_viable {close : Mark} : Viable (listed parser close) (listedTokens written close) :=
  .accept (.bind (separated_sound sound) (separated_viable sound viable) fun items =>
    .expect fun closing => .pure (by simp [listedTokens])) fun closing => .pure rfl

theorem itemsUntil_viable (fuel : Nat) : Viable (itemsUntil parser lexeme fuel) (untilTokens written lexeme) := by
  induction fuel with
  | zero => exact .refuse (begun_nil ([], .start))
  | succ fuel ih =>
      exact .accept (.bind sound viable fun first => .bind (itemsUntil_sound sound fuel) ih fun others =>
        .pure (by simp [untilTokens])) fun closing => .pure rfl

end Combinators

end Parser

open LifecycleHooks.Surface.Parser

namespace Derivation

namespace TypeRef

theorem readWithin_viable (depth : Nat) : Viable (readWithin depth) tokens := by
  have begun : Begun tokens [] := begun_nil (.named ⟨"", .start⟩)
  induction depth with
  | zero => exact .refuse begun
  | succ depth ih =>
      have inner := readWithin_sound depth
      have list := separated_viable inner ih
      refine .peek fun found => ?_
      split
      case h_1 name place =>
        exact .skip (.accept (.pure (by simp [tokens, Word.name])) fun opening =>
          .bind (separated_sound inner) list fun args =>
            .expect fun closing => .pure (by simp [tokens_generic, Word.name]))
      case h_2 place =>
        exact .skip (.expect fun opening => .bind expectInteger_sound expectInteger_viable fun length =>
          .expect fun comma => .bind inner ih fun element => .expect fun closing => .pure (by simp [tokens]))
      case h_3 place =>
        exact .skip (.expect fun opening => .bind inner ih fun element => .expect fun closing =>
          .pure (by simp [tokens]))
      case h_4 place =>
        exact .skip (.expect fun opening => .bind (separated_sound inner) list fun elements =>
          .expect fun closing => .pure (by simp [tokens_tuple]))
      case h_5 place | h_6 place | h_7 place | h_8 place =>
        exact .skip (.bind inner ih fun inner => .pure (by simp [tokens]))
      case h_9 => exact .of (.refuse begun)

theorem read_viable : Viable read tokens :=
  .bounded fun size => readWithin_viable (size + 1)

end TypeRef

theorem Member.read_viable : Viable Member.read Member.tokens :=
  .expectName fun name => .expect fun colon => .bind TypeRef.read_sound TypeRef.read_viable fun type =>
    .pure (by simp [Member.tokens])

theorem TypeParams.read?_viable : Viable TypeParams.read? (optionTokens TypeParams.tokens) :=
  .accept (.pure rfl) fun opening =>
    .bind (separated_sound expectName_sound) (separated_viable expectName_sound expectName_viable) fun names =>
      .expect fun closing => .pure (by simp [TypeParams.tokens])

namespace TypeBody

theorem readFields_viable (fuel : Nat) : Viable (readFields fuel) fieldTokens := by
  induction fuel with
  | zero => exact .pure rfl
  | succ fuel ih =>
      refine .accept (.pure rfl) fun comma => .peekLexeme fun found => ?_
      split
      case isTrue => exact .pure rfl
      case isFalse =>
        exact .bind Member.read_sound Member.read_viable fun next => .bind (readFields_sound fuel) ih fun others =>
          .pure (by simp [fieldTokens, commaTokens])

theorem readObject_viable (place : Position) (base : Option (Position × TypeRef)) (opening : Position) :
    ViableAfter (objectTokens place base opening) (readObject place base opening) tokens := by
  refine .peekLexeme fun found => ?_
  split
  case h_1 | h_2 =>
    exact .bind (accept_sound _) (accept_viable _) fun comma => .expect fun closing =>
      .pure (by simp [objectTokens, tokens])
  case h_3 =>
    exact .bind Member.read_sound Member.read_viable fun first =>
      .bind (.bounded readFields_sound) (.bounded readFields_viable) fun others =>
        .expect fun closing => .pure (by simp [objectTokens, tokens, Separated.tokens, fieldTokens])

theorem read_viable : Viable read tokens := by
  refine .peek fun found => ?_
  split
  case h_1 place =>
    refine .skip (.bind (after?_sound TypeRef.read_sound) (after?_viable TypeRef.read_sound TypeRef.read_viable)
      fun base => .expect fun opening => ?_)
    simpa [objectTokens] using readObject_viable place base opening
  case h_2 place =>
    exact .skip (.bind TypeRef.read_sound TypeRef.read_viable fun underlying => .pure (by simp [tokens]))
  case h_3 => exact .of (.refuse (begun_nil (.distinct .start (.named ⟨"", .start⟩))))

end TypeBody

theorem TypeDef.read_viable (place : Position) :
    ViableAfter [⟨.keyword .type, place⟩] (TypeDef.read place) TypeDef.tokens :=
  .expectName fun name => .bind TypeParams.read?_sound TypeParams.read?_viable fun params =>
    .expect fun equal => .bind TypeBody.read_sound TypeBody.read_viable fun body =>
      .pure (by simp [TypeDef.tokens])

namespace Expr

theorem readFields_viable (fuel : Nat) (subject : Expr) :
    ViableAfter subject.tokens (readFields fuel subject) tokens := by
  induction fuel generalizing subject with
  | zero => exact .pure rfl
  | succ fuel ih =>
      refine .accept (.pure rfl) fun dot => .expectName fun member => ?_
      simpa [tokens] using ih (.field subject dot member)

theorem readPrimary_viable {inside : Parser Expr} (sound : Sound inside tokens) (viable : Viable inside tokens) :
    Viable (readPrimary inside) tokens := by
  refine .peek fun found => ?_
  split
  case h_1 text place =>
    exact .skip (.accept (.pure (by simp [tokens, Word.name])) fun opening =>
      .bind (listed_sound sound) (listed_viable sound viable) fun answer =>
        .pure (by simp [tokens_call, Word.name, listedTokens]))
  case h_2 digits place => exact .skip (.pure (by simp [tokens, Word.integer]))
  case h_3 place | h_4 place => exact .skip (.pure (by simp [tokens]))
  case h_5 opening =>
    exact .skip (.bind sound viable fun inner => .expect fun closing => .pure (by simp [tokens]))
  case h_6 => exact .of (.refuse (begun_nil (.true .start)))

theorem readWithin_viable (depth : Nat) : Viable (readWithin depth) tokens := by
  induction depth with
  | zero => exact .refuse (begun_nil (.true .start))
  | succ depth ih =>
      have inner := readWithin_sound depth
      exact .bind (readPrimary_sound inner) (readPrimary_viable inner ih) fun subject =>
        .bounded fun size => readFields_viable size subject

theorem read_viable : Viable read tokens :=
  .bounded fun size => readWithin_viable (size + 1)

end Expr

theorem Block.readWith_viable {statement : Parser Stmt} (sound : Sound statement Stmt.tokens)
    (viable : Viable statement Stmt.tokens) : Viable (Block.readWith statement) Block.tokens :=
  .expect fun opening =>
    .bind (.bounded fun size => itemsUntil_sound sound (size + 1))
      (.bounded fun size => itemsUntil_viable sound viable (size + 1)) fun answer => .pure (by simp [Block.tokens_mk])

namespace Stmt

theorem readVar_viable (place : Position) : ViableAfter [⟨.keyword .var, place⟩] (readVar place) tokens :=
  .expectName fun name =>
    .bind (after?_sound TypeRef.read_sound) (after?_viable TypeRef.read_sound TypeRef.read_viable) fun type =>
      .bind (after?_sound Expr.read_sound) (after?_viable Expr.read_sound Expr.read_viable) fun value =>
        .expect fun semicolon => .pure (by simp [tokens])

theorem readLet_viable (place : Position) : ViableAfter [⟨.keyword .let, place⟩] (readLet place) tokens :=
  .expectName fun name =>
    .bind (after?_sound TypeRef.read_sound) (after?_viable TypeRef.read_sound TypeRef.read_viable) fun type =>
      .expect fun equal => .bind Expr.read_sound Expr.read_viable fun value =>
        .expect fun semicolon => .pure (by simp [tokens])

theorem readReturn_viable (place : Position) : ViableAfter [⟨.keyword .return, place⟩] (readReturn place) tokens :=
  .accept (.bind Expr.read_sound Expr.read_viable fun value => .expect fun semicolon => .pure (by simp [tokens]))
    fun semicolon => .pure (by simp [tokens])

theorem readPlain_viable : Viable readPlain tokens := by
  refine .bind Expr.read_sound Expr.read_viable fun target =>
    .bind (after?_sound Expr.read_sound) (after?_viable Expr.read_sound Expr.read_viable) fun value? => ?_
  cases value? with
  | none => exact .expect fun semicolon => .pure (by simp [tokens])
  | some entry => exact .expect fun semicolon => .pure (by simp [tokens, behindTokens])

end Stmt

theorem Branch.one_le_length_tokens (branch : Branch) : 1 ≤ branch.tokens.length := by
  cases branch
  simp [Branch.tokens_mk]

section Nesting

variable {depth : Nat} (statement : Viable (Stmt.readWithin depth) Stmt.tokens)
  (branch : ∀ place, ViableAfter [⟨.keyword .if, place⟩] (Branch.readWithin depth place) Branch.tokens)

include statement branch

theorem Branch.readWithin_viable_succ (place : Position) :
    ViableAfter [⟨.keyword .if, place⟩] (Branch.readWithin (depth + 1) place) Branch.tokens := by
  have sound := Block.readWith_sound (readWithin_sound depth).1
  have block := Block.readWith_viable (readWithin_sound depth).1 statement
  unfold Branch.readWithin
  refine .bind Expr.read_sound Expr.read_viable fun condition => .bind sound block fun yes =>
    .accept (.pure (by simp [Branch.tokens])) fun otherwise => .accept ?_ fun inner => ?_
  · exact .bind sound block fun no => .pure (by simp [Branch.tokens, Alternative.tokens])
  · exact .bindFrom rfl ((readWithin_sound depth).2 inner) Branch.one_le_length_tokens (branch inner) fun no =>
      .pure (by simp [Branch.tokens, Alternative.tokens])

theorem Stmt.readWithin_viable_succ : Viable (Stmt.readWithin (depth + 1)) Stmt.tokens := by
  have sound := Block.readWith_sound (readWithin_sound depth).1
  have block := Block.readWith_viable (readWithin_sound depth).1 statement
  unfold Stmt.readWithin
  refine .peek fun found => ?_
  split
  case h_1 place => exact .skip (readVar_viable place)
  case h_2 place => exact .skip (readLet_viable place)
  case h_3 place => exact .skip (readReturn_viable place)
  case h_4 place =>
    exact .skip (.bindFrom rfl ((readWithin_sound depth).2 place) Branch.one_le_length_tokens (branch place)
      fun inner => .pure (by simp [tokens]))
  case h_5 place =>
    exact .skip (.bind Expr.read_sound Expr.read_viable fun condition => .bind sound block fun body =>
      .pure (by simp [tokens]))
  case h_6 place | h_7 place => exact .skip (.expect fun semicolon => .pure (by simp [tokens]))
  case h_8 place => exact .skip (.bind sound block fun block => .pure (by simp [tokens]))
  case h_9 place =>
    exact .skip (.bind Expr.read_sound Expr.read_viable fun operand => .expect fun semicolon =>
      .pure (by simp [tokens]))
  case h_10 => exact .of readPlain_viable

end Nesting

theorem readWithin_viable (depth : Nat) :
    Viable (Stmt.readWithin depth) Stmt.tokens ∧
      ∀ place, ViableAfter [⟨.keyword .if, place⟩] (Branch.readWithin depth place) Branch.tokens := by
  induction depth with
  | zero =>
      refine ⟨.refuse (begun_nil (.break .start .start)), fun place => .refuse ?_⟩
      exact ⟨.mk place (.true .start) (.mk .start [] .start) none, by simp [Branch.tokens]⟩
  | succ depth ih => exact ⟨Stmt.readWithin_viable_succ ih.1 ih.2, Branch.readWithin_viable_succ ih.1 ih.2⟩

theorem Stmt.read_viable : Viable Stmt.read Stmt.tokens :=
  .bounded fun size => (readWithin_viable (size + 1)).1

theorem ProcName.read_viable : Viable ProcName.read (fun name => [name.token]) := by
  refine .peek fun found => ?_
  split
  case h_1 text place => exact .skip (.pure rfl)
  case h_2 text place => exact .skip (.pure rfl)
  case h_3 => exact .of (.refuse (begun_nil (.plain ⟨"", .start⟩)))

theorem ProcDef.read_viable (place : Position) :
    ViableAfter [⟨.keyword .proc, place⟩] (ProcDef.read place) ProcDef.tokens :=
  .bind ProcName.read_sound ProcName.read_viable fun name =>
    .bind TypeParams.read?_sound TypeParams.read?_viable fun typeParams =>
      .expect fun opening =>
        .bind (listed_sound Member.read_sound) (listed_viable Member.read_sound Member.read_viable) fun answer =>
          .bind (after?_sound TypeRef.read_sound) (after?_viable TypeRef.read_sound TypeRef.read_viable) fun result =>
            .bind (Block.readWith_sound Stmt.read_sound) (Block.readWith_viable Stmt.read_sound Stmt.read_viable)
              fun body => .pure (by simp [ProcDef.tokens, listedTokens])

theorem Item.readAll_viable (fuel : Nat) : Viable (readAll fuel) (List.flatMap tokens) := by
  induction fuel with
  | zero => exact .refuse (begun_nil [])
  | succ fuel ih =>
      refine .peek fun found => ?_
      split
      case h_1 => exact .of (.pure rfl)
      case h_2 place =>
        exact .skip (.bindFrom rfl (TypeDef.read_sound place) (by simp [TypeDef.tokens]) (TypeDef.read_viable place)
          fun decl => .bind (readAll_sound fuel) ih fun items => .pure (by simp [tokens]))
      case h_3 place =>
        exact .skip (.bindFrom rfl (ProcDef.read_sound place) (by simp [ProcDef.tokens]) (ProcDef.read_viable place)
          fun decl => .bind (readAll_sound fuel) ih fun items => .pure (by simp [tokens]))
      case h_4 => exact .of (.refuse (begun_nil []))

/-- Some program begins with these tokens. -/
def Program.Viable (tokens : List Token) : Prop := Begun Program.tokens tokens

/-- What is read of a program before a token is refused is the beginning of some program. -/
theorem Program.read_viable {tokens unread : List Token} (run : Program.read tokens = .error unread) :
    ∃ taken, tokens = taken ++ unread ∧ Program.Viable taken := by
  have items : ViableAfter [] Program.read Program.tokens :=
    .bind (.bounded fun size => Item.readAll_sound (size + 1)) (.bounded fun size => Item.readAll_viable (size + 1))
      fun items => .pure rfl
  exact items.refused run

end Derivation
end LifecycleHooks.Surface

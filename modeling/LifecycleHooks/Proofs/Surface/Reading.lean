import LifecycleHooks.Proofs.Surface.Grammar
import LifecycleHooks.Surface.Parser

/-!
# Readers and writers

A reader is the inverse of a writer when it answers with what it read, and when it reads whatever
was written, as long as what comes behind does not go on with it.  This is shown here for the
combinators that readers are made of.
-/

namespace LifecycleHooks.Surface.Parser

variable {Item Result : Type} {tokens rest : List Token}

section Runs

@[simp]
theorem pure_run (item : Item) (tokens : List Token) : (pure item : Parser Item) tokens = .ok (item, tokens) :=
  rfl

@[simp]
theorem refuse_run (tokens : List Token) : (refuse : Parser Item) tokens = .error tokens :=
  rfl

theorem bind_run (parser : Parser Item) (next : Item → Parser Result) (tokens : List Token) :
    (parser >>= next) tokens =
      match parser tokens with
      | .ok (item, rest) => next item rest
      | .error unread => .error unread := by
  change (parser tokens >>= fun (item, rest) => next item rest) = _
  cases parser tokens <;> rfl

theorem bind_of_ok {parser : Parser Item} {next : Item → Parser Result} {item : Item}
    (run : parser tokens = .ok (item, rest)) : (parser >>= next) tokens = next item rest := by
  rw [bind_run, run]

theorem map_of_ok {parser : Parser Item} {item : Item} (form : Item → Result)
    (run : parser tokens = .ok (item, rest)) : (form <$> parser) tokens = .ok (form item, rest) := by
  rw [← bind_pure_comp, bind_of_ok run, pure_run]

theorem bind_eq_ok {parser : Parser Item} {next : Item → Parser Result} {result : Result} :
    (parser >>= next) tokens = .ok (result, rest) ↔
      ∃ item behind, parser tokens = .ok (item, behind) ∧ next item behind = .ok (result, rest) := by
  rw [bind_run]
  cases parser tokens with
  | ok answer =>
      obtain ⟨item, behind⟩ := answer
      simp [and_assoc]
  | error unread => simp

@[simp]
theorem peek_bind (next : Option Token → Parser Result) (tokens : List Token) :
    (peek >>= next) tokens = next tokens.head? tokens :=
  rfl

@[simp]
theorem peekLexeme_bind (next : Option Lexeme → Parser Result) (tokens : List Token) :
    (peekLexeme >>= next) tokens = next (tokens.head?.map Token.lexeme) tokens :=
  rfl

@[simp]
theorem skip_bind (next : Unit → Parser Result) (tokens : List Token) :
    (skip >>= next) tokens = next () tokens.tail :=
  rfl

@[simp]
theorem skip_map (form : Unit → Result) (tokens : List Token) :
    (form <$> skip) tokens = .ok (form (), tokens.tail) :=
  rfl

@[simp]
theorem bounded_run (parser : Nat → Parser Item) (tokens : List Token) :
    bounded parser tokens = parser tokens.length tokens :=
  rfl

end Runs

/-- The tokens do not begin with one of these lexemes. -/
def Stops (lexemes : List Lexeme) (tokens : List Token) : Prop :=
  ∀ token ∈ tokens.head?, token.lexeme ∉ lexemes

@[simp]
theorem stops_nil (lexemes : List Lexeme) : Stops lexemes [] := by
  simp [Stops]

@[simp]
theorem stops_cons {lexemes : List Lexeme} {token : Token} :
    Stops lexemes (token :: rest) ↔ token.lexeme ∉ lexemes := by
  simp [Stops]

@[simp]
theorem stops_none (tokens : List Token) : Stops [] tokens := by
  simp [Stops]

theorem Stops.subset {lexemes others : List Lexeme} (stops : Stops lexemes tokens) (subset : others ⊆ lexemes) :
    Stops others tokens :=
  fun token first member => stops token first (subset member)

section Tokens

variable {lexeme : Lexeme} {place : Position} {word : Word}

theorem expect_eq_ok : expect lexeme tokens = .ok (place, rest) ↔ tokens = ⟨lexeme, place⟩ :: rest := by
  unfold expect
  rw [peek_bind]
  cases tokens with
  | nil => simp
  | cons token tokens =>
      obtain ⟨found, here⟩ := token
      by_cases same : found = lexeme
      · subst found
        simp
      · simp [same]

theorem expectName_eq_ok : expectName tokens = .ok (word, rest) ↔ tokens = word.name :: rest := by
  unfold expectName
  rw [peek_bind]
  cases tokens with
  | nil => simp
  | cons token tokens =>
      obtain ⟨found, here⟩ := token
      obtain ⟨text, place⟩ := word
      cases found <;> simp [Word.name, and_assoc]

theorem expectInteger_eq_ok : expectInteger tokens = .ok (word, rest) ↔ tokens = word.integer :: rest := by
  unfold expectInteger
  rw [peek_bind]
  cases tokens with
  | nil => simp
  | cons token tokens =>
      obtain ⟨found, here⟩ := token
      obtain ⟨text, place⟩ := word
      cases found <;> simp [Word.integer, and_assoc]

theorem accept_cons : accept lexeme (⟨lexeme, place⟩ :: rest) = .ok (some place, rest) := by
  unfold accept
  rw [peek_bind]
  simp

theorem accept_of_stops (stops : Stops [lexeme] tokens) : accept lexeme tokens = .ok (none, tokens) := by
  unfold accept
  rw [peek_bind]
  cases tokens with
  | nil => rfl
  | cons token tokens =>
      have other : token.lexeme ≠ lexeme := by simpa using stops
      simp [other]

@[simp]
theorem expect_bind (next : Position → Parser Result) :
    (expect lexeme >>= next) (⟨lexeme, place⟩ :: rest) = next place rest :=
  bind_of_ok (expect_eq_ok.mpr rfl)

@[simp]
theorem expect_map (form : Position → Result) :
    (form <$> expect lexeme) (⟨lexeme, place⟩ :: rest) = .ok (form place, rest) :=
  map_of_ok form (expect_eq_ok.mpr rfl)

@[simp]
theorem expectName_bind (next : Word → Parser Result) : (expectName >>= next) (word.name :: rest) = next word rest :=
  bind_of_ok (expectName_eq_ok.mpr rfl)

@[simp]
theorem expectInteger_bind (next : Word → Parser Result) :
    (expectInteger >>= next) (word.integer :: rest) = next word rest :=
  bind_of_ok (expectInteger_eq_ok.mpr rfl)

@[simp]
theorem accept_bind_cons (next : Option Position → Parser Result) :
    (accept lexeme >>= next) (⟨lexeme, place⟩ :: rest) = next (some place) rest :=
  bind_of_ok accept_cons

theorem accept_bind_of_stops (next : Option Position → Parser Result) (stops : Stops [lexeme] tokens) :
    (accept lexeme >>= next) tokens = next none tokens :=
  bind_of_ok (accept_of_stops stops)

end Tokens

/-- What a parser answers with is written by the tokens that were `read` before together with
those that it has read itself. -/
def SoundAfter (read : List Token) (parser : Parser Item) (written : Item → List Token) : Prop :=
  ∀ ⦃tokens item rest⦄, parser tokens = .ok (item, rest) → read ++ tokens = written item ++ rest

/-- What a parser answers with is written by the tokens that it has read. -/
abbrev Sound (parser : Parser Item) (written : Item → List Token) : Prop :=
  SoundAfter [] parser written

/-- A parser is sound on tokens that begin with a token that was looked at, or on no tokens if
there was none. -/
def SoundOn (found : Option Token) (read : List Token) (parser : Parser Item) (written : Item → List Token) : Prop :=
  ∀ ⦃tokens item rest⦄, tokens.head? = found → parser tokens = .ok (item, rest) →
    read ++ tokens = written item ++ rest

/-- A parser reads an item from its tokens, as long as what follows does not begin with one of
the lexemes that could go on with it. -/
def Reads (parser : Parser Item) (written : Item → List Token) (stops : List Lexeme) (item : Item) : Prop :=
  ∀ ⦃rest⦄, Stops stops rest → parser (written item ++ rest) = .ok (item, rest)

section Soundness

variable {parser : Parser Item} {written : Item → List Token} {result : Result → List Token} {read : List Token}
  {token : Token} {found : Option Token} {lexeme : Lexeme}

theorem SoundAfter.pure {item : Item} (same : read = written item) : SoundAfter read (pure item) written := by
  intro tokens item rest run
  obtain ⟨rfl, rfl⟩ : _ = item ∧ tokens = rest := by simpa using run
  rw [same]

theorem SoundAfter.refuse : SoundAfter read refuse written := by
  intro tokens item rest run
  simp at run

/-- The first of two parsers goes on with the last of the tokens that were read before. -/
theorem SoundAfter.bindFrom {next : Item → Parser Result} {before front : List Token} (split : before = front ++ read)
    (first : SoundAfter read parser written) (second : ∀ item, SoundAfter (front ++ written item) (next item) result) :
    SoundAfter before (parser >>= next) result := by
  intro tokens answer rest run
  obtain ⟨item, behind, ran, run⟩ := bind_eq_ok.mp run
  have taken : read ++ tokens = written item ++ behind := first ran
  calc before ++ tokens
      _ = front ++ written item ++ behind := by simp [split, taken]
      _ = result answer ++ rest := second item run

theorem SoundAfter.bind {next : Item → Parser Result} (first : Sound parser written)
    (second : ∀ item, SoundAfter (read ++ written item) (next item) result) :
    SoundAfter read (parser >>= next) result :=
  .bindFrom (List.append_nil read).symm first second

theorem SoundAfter.bounded {parser : Nat → Parser Item} (sound : ∀ size, SoundAfter read (parser size) written) :
    SoundAfter read (bounded parser) written :=
  fun tokens _ _ run => sound tokens.length run

theorem SoundAfter.peek {next : Option Token → Parser Item} (sound : ∀ found, SoundOn found read (next found) written) :
    SoundAfter read (peek >>= next) written :=
  fun tokens _ _ run => sound tokens.head? rfl run

theorem SoundOn.of (sound : SoundAfter read parser written) : SoundOn found read parser written :=
  fun _ _ _ _ run => sound run

theorem SoundOn.skip {next : Unit → Parser Item} (sound : SoundAfter (read ++ [token]) (next ()) written) :
    SoundOn (some token) read (skip >>= next) written := by
  intro tokens item rest first run
  obtain ⟨tail, rfl⟩ := List.head?_eq_some_iff.mp first
  have taken := sound run
  simpa using taken

theorem SoundAfter.peekLexeme {next : Option Lexeme → Parser Item}
    (sound : ∀ found, SoundAfter read (next found) written) : SoundAfter read (peekLexeme >>= next) written :=
  fun _ _ _ run => sound _ run

theorem expect_sound (lexeme : Lexeme) : Sound (expect lexeme) (fun place => [⟨lexeme, place⟩]) :=
  fun _ _ _ run => expect_eq_ok.mp run

theorem expectName_sound : Sound expectName (fun word => [word.name]) :=
  fun _ _ _ run => expectName_eq_ok.mp run

theorem expectInteger_sound : Sound expectInteger (fun word => [word.integer]) :=
  fun _ _ _ run => expectInteger_eq_ok.mp run

theorem accept_sound (lexeme : Lexeme) : Sound (accept lexeme) (optionTokens fun place => [⟨lexeme, place⟩]) := by
  refine .peek fun found => ?_
  cases found with
  | none => exact .of (.pure rfl)
  | some token =>
      dsimp only
      split
      case isTrue same => exact .skip (.pure (by simp [← same]))
      case isFalse => exact .of (.pure rfl)

theorem after?_sound (sound : Sound parser written) :
    Sound (after? lexeme parser) (optionTokens (behindTokens written lexeme)) := by
  refine .bind (accept_sound lexeme) fun place? => ?_
  cases place? with
  | none => exact .pure rfl
  | some place => exact .bind sound fun item => .pure (by simp [behindTokens])

theorem commaItems_sound (sound : Sound parser written) (fuel : Nat) :
    Sound (commaItems parser fuel) (commaTokens written) := by
  induction fuel with
  | zero => exact .pure rfl
  | succ fuel ih =>
      refine .bind (accept_sound _) fun comma? => ?_
      cases comma? with
      | none => exact .pure rfl
      | some comma =>
          exact .bind sound fun next => .bind ih fun others => .pure (by simp [commaTokens])

theorem separated_sound (sound : Sound parser written) : Sound (separated parser) (Separated.tokens written) :=
  .bind sound fun _ => .bind (.bounded (commaItems_sound sound)) fun _ => .pure (by simp [Separated.tokens])

theorem listed_sound {close : Mark} (sound : Sound parser written) :
    Sound (listed parser close) (listedTokens written close) := by
  refine .bind (accept_sound _) fun closing? => ?_
  cases closing? with
  | some closing => exact .pure rfl
  | none =>
      exact .bind (separated_sound sound) fun items => .bind (expect_sound _) fun closing =>
        .pure (by simp [listedTokens])

theorem itemsUntil_sound (sound : Sound parser written) (fuel : Nat) :
    Sound (itemsUntil parser lexeme fuel) (untilTokens written lexeme) := by
  induction fuel with
  | zero => exact .refuse
  | succ fuel ih =>
      refine .bind (accept_sound _) fun closing? => ?_
      cases closing? with
      | some closing => exact .pure rfl
      | none =>
          exact .bind sound fun first => .bind ih fun others => .pure (by simp [untilTokens])

end Soundness

section Completeness

variable {parser : Parser Item} {written : Item → List Token} {lexeme : Lexeme} {stops : List Lexeme}

theorem Reads.bind {item : Item} (reads : Reads parser written stops item) (next : Item → Parser Result)
    (follows : Stops stops rest) : (parser >>= next) (written item ++ rest) = next item rest :=
  bind_of_ok (reads follows)

theorem Reads.map {item : Item} (reads : Reads parser written stops item) (form : Item → Result)
    (follows : Stops stops rest) : (form <$> parser) (written item ++ rest) = .ok (form item, rest) :=
  map_of_ok form (reads follows)

theorem Reads.bounded {parser : Nat → Parser Item} {item : Item}
    (reads : ∀ size, (written item).length ≤ size → Reads (parser size) written stops item) :
    Reads (bounded parser) written stops item := by
  intro rest follows
  rw [bounded_run]
  exact reads _ (by simp) follows

theorem after?_reads (lexeme : Lexeme) {item : Option (Position × Item)}
    (reads : ∀ entry ∈ item, Reads parser written stops entry.2) :
    Reads (after? lexeme parser) (optionTokens (behindTokens written lexeme)) (lexeme :: stops) item := by
  intro rest follows
  unfold after?
  cases item with
  | none =>
      rw [optionTokens_none, List.nil_append, accept_bind_of_stops _ (follows.subset (by simp))]
      rfl
  | some entry =>
      have inner := reads entry rfl
      simp [behindTokens, inner.map _ (follows.subset (List.subset_cons_self _ _))]

theorem stops_commaTokens (items : List (Position × Item)) (free : .mark .comma ∉ stops)
    (follows : Stops (.mark .comma :: stops) rest) : Stops stops (commaTokens written items ++ rest) := by
  cases items with
  | nil => exact follows.subset (List.subset_cons_self _ _)
  | cons entry others => simpa [commaTokens] using free

theorem commaItems_reads {items : List (Position × Item)} (free : .mark .comma ∉ stops)
    (reads : ∀ entry ∈ items, Reads parser written stops entry.2) {fuel : Nat} (enough : items.length ≤ fuel) :
    Reads (commaItems parser fuel) (commaTokens written) (.mark .comma :: stops) items := by
  induction fuel generalizing items with
  | zero =>
      obtain rfl : items = [] := by simpa using enough
      exact fun _ _ => rfl
  | succ fuel ih =>
      intro rest follows
      unfold commaItems
      cases items with
      | nil =>
          rw [commaTokens, List.nil_append, accept_bind_of_stops _ (follows.subset (by simp))]
          rfl
      | cons entry others =>
          have head := reads entry List.mem_cons_self
          have tail := ih (fun next member => reads next (List.mem_cons_of_mem _ member)) (by simpa using enough)
          simp [commaTokens, head.bind _ (stops_commaTokens others free follows), tail.map _ follows]

theorem separated_reads {list : Separated Item} (free : .mark .comma ∉ stops)
    (reads : ∀ item ∈ list.items, Reads parser written stops item) :
    Reads (separated parser) (Separated.tokens written) (.mark .comma :: stops) list := by
  obtain ⟨first, others⟩ := list
  intro rest follows
  have head := reads first List.mem_cons_self
  have tail : Reads (bounded (commaItems parser)) (commaTokens written) (.mark .comma :: stops) others :=
    .bounded fun size enough => commaItems_reads free
      (fun entry member => reads entry.2 (List.mem_cons_of_mem _ (List.mem_map_of_mem member)))
      (Nat.le_trans (length_le_commaTokens written others) enough)
  unfold separated
  simp [Separated.tokens, head.bind _ (stops_commaTokens others free follows), tail.map _ follows]

theorem listed_reads {close : Mark} {answer : Option (Separated Item) × Position}
    (free : .mark .comma ∉ stops) (closes : .mark close ∉ .mark .comma :: stops)
    (begins : ∀ list ∈ answer.1, ∀ rest, Stops [.mark close] (written list.first ++ rest))
    (reads : ∀ item ∈ itemsOf answer.1, Reads parser written stops item) :
    Reads (listed parser close) (listedTokens written close) [] answer := by
  obtain ⟨list?, closing⟩ := answer
  intro rest follows
  unfold listed
  cases list? with
  | none => simp [listedTokens]
  | some list =>
      have first : Stops [.mark close] (Separated.tokens written list ++ ⟨.mark close, closing⟩ :: rest) := by
        simpa only [Separated.tokens, List.append_assoc] using begins list rfl _
      have read := separated_reads free reads
      simp only [listedTokens, optionTokens_some, List.append_assoc, List.singleton_append]
      rw [accept_bind_of_stops _ first]
      simp only
      rw [read.bind _ (by simpa using closes), expect_bind]
      rfl

theorem itemsUntil_reads {items : List Item} {closing : Position} (closes : lexeme ∉ stops)
    (begins : ∀ item ∈ items, ∀ rest, Stops (lexeme :: stops) (written item ++ rest))
    (reads : ∀ item ∈ items, Reads parser written stops item) {fuel : Nat} (enough : items.length < fuel) :
    Reads (itemsUntil parser lexeme fuel) (untilTokens written lexeme) [] (items, closing) := by
  induction fuel generalizing items with
  | zero => omega
  | succ fuel ih =>
      intro rest follows
      unfold itemsUntil
      cases items with
      | nil => simp [untilTokens]
      | cons first others =>
          -- What follows the first item is another item or the closing lexeme.
          have ends : Stops stops (untilTokens written lexeme (others, closing) ++ rest) := by
            cases others with
            | nil => simpa [untilTokens] using closes
            | cons second others =>
                have next := begins second (by simp) (others.flatMap written ++ ⟨lexeme, closing⟩ :: rest)
                simpa [untilTokens] using next.subset (List.subset_cons_self _ _)
          have start : Stops [lexeme] (written first ++ (untilTokens written lexeme (others, closing) ++ rest)) :=
            (begins first List.mem_cons_self _).subset (by simp)
          have head := reads first List.mem_cons_self
          have tail := ih (fun item member => begins item (List.mem_cons_of_mem _ member))
            (fun item member => reads item (List.mem_cons_of_mem _ member)) (by simpa using enough)
          have split : untilTokens written lexeme (first :: others, closing) ++ rest =
              written first ++ (untilTokens written lexeme (others, closing) ++ rest) := by
            simp [untilTokens]
          rw [split, accept_bind_of_stops _ start]
          simp only
          rw [head.bind _ ends, tail.bind _ follows]
          rfl

/-- Items that begin unlike the lexeme behind them take a token each. -/
theorem length_le_flatMap {items : List Item} (begins : ∀ item ∈ items, ∀ rest, Stops [lexeme] (written item ++ rest)) :
    items.length ≤ (items.flatMap written).length := by
  induction items with
  | nil => simp
  | cons first others ih =>
      have head : written first ≠ [] := by
        intro empty
        -- An item without tokens would begin as what follows it.
        have stops := begins first List.mem_cons_self [⟨lexeme, .start⟩]
        simp [empty] at stops
      have size := List.length_pos_iff.mpr head
      have tail := ih fun item member => begins item (List.mem_cons_of_mem _ member)
      simp only [List.flatMap_cons, List.length_append, List.length_cons]
      omega

theorem itemsUntil_bounded_reads {items : List Item} {closing : Position} (closes : lexeme ∉ stops)
    (begins : ∀ item ∈ items, ∀ rest, Stops (lexeme :: stops) (written item ++ rest))
    (reads : ∀ item ∈ items, Reads parser written stops item) :
    Reads (bounded fun size => itemsUntil parser lexeme (size + 1)) (untilTokens written lexeme) []
      (items, closing) := by
  refine .bounded fun size enough => itemsUntil_reads closes begins reads ?_
  have alone (item : Item) (member : item ∈ items) (rest : List Token) : Stops [lexeme] (written item ++ rest) :=
    (begins item member rest).subset (by simp)
  have count := length_le_flatMap alone
  simp only [untilTokens, List.length_append, List.length_singleton] at enough
  omega

end Completeness

end LifecycleHooks.Surface.Parser

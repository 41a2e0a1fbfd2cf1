import LifecycleHooks.Proofs.Lifting.PlaceText
import LifecycleHooks.Proofs.Surface.Acceptance
import LifecycleHooks.Proofs.Surface.Lookahead

/-!
# Syntax errors

A text that is no program has a first offence: a character at which no terminal matches, a token
with which no program begins, or an end that comes too early.  It is what the parser reports.  The
diagnostic stands at the place of the offence and names it, unless the offence is a character that
breaks lines, at which the message is cut.
-/

namespace LifecycleHooks.Surface

/-- A text that starts at `place` lexes as a list of tokens up to what is left of it, which starts
at `after`. -/
inductive LexesTo : (place : Position) → List Char → List Token → (after : Position) → (left : List Char) → Prop
  | stop (place : Position) (text : List Char) : LexesTo place text [] place text
  | piece {place after : Position} {terminal : Terminal} {taken rest left : List Char} {tokens : List Token}
      (longest : terminal.Longest taken rest)
      (next : LexesTo (taken.foldl Position.advance place) rest tokens after left) :
      LexesTo place (taken ++ rest)
        (optionTokens (fun lexeme => [⟨lexeme, place⟩]) (terminal.lexeme? taken) ++ tokens) after left

section Lexing

variable {place after : Position} {text left : List Char} {tokens front : List Token} {fuel : Nat}

/-- Reading a text goes on where it lexes to. -/
theorem LexesTo.readWithin (lexes : LexesTo place text tokens after left) (enough : text.length ≤ fuel) :
    ∃ less, left.length ≤ less ∧ Lexed.readWithin fuel place text =
      ⟨tokens ++ (Lexed.readWithin less after left).tokens, (Lexed.readWithin less after left).stray⟩ := by
  induction lexes generalizing fuel with
  | stop place text => exact ⟨fuel, enough, rfl⟩
  | @piece place after terminal taken rest left tokens longest next ih =>
      have size := List.length_pos_iff.mpr longest.fits.ne_nil
      rw [List.length_append] at enough
      obtain ⟨fuel, rfl⟩ : ∃ less, fuel = less + 1 := Nat.exists_eq_succ_of_ne_zero (by omega)
      have smaller : rest.length ≤ fuel := by omega
      obtain ⟨less, short, same⟩ := ih smaller
      exact ⟨less, short, by rw [Lexed.readWithin_longest longest, same, List.append_assoc]⟩

/-- A text lexes as the first of its tokens up to what is behind them. -/
theorem LexesTo.of_front (before : front <+: (Lexed.readWithin fuel place text).tokens) :
    ∃ after left, LexesTo place text front after left := by
  induction fuel generalizing place text front with
  | zero =>
      obtain rfl : front = [] := List.prefix_nil.mp before
      exact ⟨place, text, .stop place text⟩
  | succ fuel ih =>
      cases found : piece? text with
      | none =>
          obtain rfl : front = [] := by
            cases text <;> simpa [Lexed.readWithin, found] using before
          exact ⟨place, text, .stop place text⟩
      | some piece =>
          obtain ⟨terminal, rest, rfl, longest, -⟩ := piece?_longest found
          rw [Lexed.readWithin_longest longest] at before
          cases written : terminal.lexeme? piece.taken with
          | none =>
              rw [written] at before
              obtain ⟨after, left, next⟩ := ih before
              exact ⟨after, left, by simpa [written] using next.piece longest⟩
          | some lexeme =>
              cases front with
              | nil => exact ⟨place, _, .stop place _⟩
              | cons first front =>
                  rw [written] at before
                  obtain ⟨rfl, onwards⟩ : first = ⟨lexeme, place⟩ ∧ front <+: (Lexed.readWithin fuel _ rest).tokens :=
                    List.cons_prefix_cons.mp before
                  obtain ⟨after, left, next⟩ := ih onwards
                  exact ⟨after, left, by simpa [written] using next.piece longest⟩

/-- A text that stops being read at a character lexes up to it. -/
theorem LexesTo.of_stray {first : Char} (enough : text.length ≤ fuel)
    (run : Lexed.readWithin fuel place text = ⟨tokens, some (first, after)⟩) :
    ∃ rest, LexesTo place text tokens after (first :: rest) ∧ piece? (first :: rest) = none := by
  induction fuel generalizing place text tokens with
  | zero => cases (Lexed.mk.inj run).2
  | succ fuel ih =>
      cases text with
      | nil => cases (Lexed.mk.inj run).2
      | cons start others =>
          cases found : piece? (start :: others) with
          | none =>
              obtain ⟨rfl, stray⟩ : [] = tokens ∧ some (start, place) = some (first, after) := by
                simpa [Lexed.readWithin, found] using run
              obtain ⟨rfl, rfl⟩ := Prod.mk.inj (Option.some.inj stray)
              exact ⟨others, .stop _ _, found⟩
          | some piece =>
              obtain ⟨terminal, rest, split, longest, -⟩ := piece?_longest found
              rw [split] at enough run ⊢
              rw [Lexed.readWithin_longest longest] at run
              obtain ⟨rfl, stray⟩ := Lexed.mk.inj run
              have size := List.length_pos_iff.mpr longest.fits.ne_nil
              rw [List.length_append] at enough
              obtain ⟨left, next, none⟩ := ih (by omega) (congrArg (Lexed.mk _) stray)
              exact ⟨left, .piece longest next, none⟩

/-- There is no piece just where no terminal matches. -/
theorem piece?_eq_none_iff :
    piece? text = none ↔ ∀ terminal taken, Terminal.Matches terminal taken → ¬ taken <+: text := by
  constructor
  · rintro none terminal taken fits ⟨rest, rfl⟩
    obtain ⟨piece, found⟩ := exists_piece fits rest
    rw [none] at found
    cases found
  · intro none
    cases found : piece? text with
    | none => rfl
    | some piece =>
        obtain ⟨terminal, rest, split, longest, -⟩ := piece?_longest found
        exact absurd ⟨rest, split.symm⟩ (none terminal piece.taken longest.fits)

end Lexing

section Refusals

variable {before more tokens : List Token} {token : Token}

/-- A token that no program goes on with is refused. -/
theorem Derivation.Program.read_of_stuck (viable : Program.Viable before)
    (stuck : ¬ Program.Viable (before ++ [token])) :
    Program.read (before ++ token :: more) = .error (token :: more) := by
  cases run : Program.read (before ++ token :: more) with
  | ok answer =>
      obtain ⟨whole, -⟩ := read_eq_ok.mp run
      exact absurd ⟨answer.1, more, by simp [whole]⟩ stuck
  | error unread =>
      obtain ⟨taken, split, onwards, next⟩ := read_error run
      obtain ⟨between, rfl, same⟩ | ⟨between, rfl, rfl⟩ := List.append_eq_append_iff.mp split
      · cases between with
        | nil => rw [same, List.nil_append]
        | cons first between =>
            obtain ⟨rfl, -⟩ := List.cons.inj same
            exact absurd (onwards.front ⟨between, by simp⟩) stuck
      · cases between with
        | nil => rfl
        | cons first between => exact absurd (viable.front ⟨between, by simp⟩) (next first rfl)

/-- What can be continued is only refused at its end. -/
theorem Derivation.Program.read_of_viable (viable : Program.Viable tokens) :
    (∃ program : Program, program.tokens = tokens) ∨ Program.read tokens = .error [] := by
  cases run : Program.read tokens with
  | ok answer => exact .inl ⟨answer.1, (read_eq_ok.mp run).1⟩
  | error unread =>
      obtain ⟨taken, rfl, -, next⟩ := read_error run
      cases unread with
      | nil => exact .inr rfl
      | cons first unread => exact absurd (viable.front ⟨unread, by simp⟩) (next first rfl)

end Refusals

/-- The first thing in a text that no program goes on with: a token that cannot follow the tokens
before it, a character at which no terminal matches, or the end of the text, which stands where the
last token starts.  The tokens before it begin some program. -/
inductive Offence (source : String) : SyntaxError → Prop
  | token {before : List Token} {token : Token} {after : Position} {left : List Char}
      (lexes : LexesTo .start source.toList (before ++ [token]) after left) (viable : Derivation.Program.Viable before)
      (stuck : ¬ Derivation.Program.Viable (before ++ [token])) : Offence source (.unexpectedToken token)
  | character {tokens : List Token} {place : Position} {first : Char} {rest : List Char}
      (lexes : LexesTo .start source.toList tokens place (first :: rest)) (viable : Derivation.Program.Viable tokens)
      (none : ∀ terminal taken, Terminal.Matches terminal taken → ¬ taken <+: first :: rest) :
      Offence source (.strayCharacter first place)
  | ending {before : List Token} {last : Token} (lexes : Lexes .start source.toList (before ++ [last]))
      (viable : Derivation.Program.Viable (before ++ [last]))
      (incomplete : ∀ program : Derivation.Program, program.tokens ≠ before ++ [last]) :
      Offence source (.unexpectedEnd last.place)

section Offences

variable {source : String} {error : SyntaxError}

/-- The parser reports the first offence. -/
theorem Offence.parse_eq (offence : Offence source error) : parse source = .error error := by
  unfold parse
  cases offence with
  | @token before token after left lexes viable stuck =>
      obtain ⟨less, -, same⟩ := lexes.readWithin (Nat.le_refl _)
      have read : (Lexed.read source).tokens = before ++ token :: (Lexed.readWithin less after left).tokens := by
        rw [Lexed.read, same, List.append_assoc]
        rfl
      unfold Lexed.program
      rw [read, Derivation.Program.read_of_stuck viable stuck]
      rfl
  | @character tokens place first rest lexes viable none =>
      obtain ⟨less, short, same⟩ := lexes.readWithin (Nat.le_refl _)
      obtain ⟨less, rfl⟩ : ∃ fuel, less = fuel + 1 := Nat.exists_eq_succ_of_ne_zero (by simp at short; omega)
      have read : Lexed.read source = ⟨tokens, some (first, place)⟩ := by
        rw [Lexed.read, same]
        simp [Lexed.readWithin, piece?_eq_none_iff.mpr none]
      unfold Lexed.program
      rw [read]
      obtain ⟨program, rfl⟩ | refused := Derivation.Program.read_of_viable viable
      · rw [Derivation.Program.read_eq_ok.mpr ⟨rfl, rfl⟩]
      · rw [refused]
        rfl
  | @ending before last lexes viable incomplete =>
      unfold Lexed.program
      rw [Lexed.read_eq_iff.mpr lexes]
      obtain ⟨program, same⟩ | refused := Derivation.Program.read_of_viable viable
      · exact absurd same (incomplete program)
      · rw [refused]
        simp [Lexed.refusal, Lexed.endPlace]

/-- A text that is no program has a first offence. -/
theorem exists_offence (none : ∀ derivation : Derivation.Program, ¬ derivation.Spells source) :
    ∃ error, Offence source error := by
  by_cases viable : Derivation.Program.Viable (Lexed.read source).tokens
  case pos =>
    cases stray : (Lexed.read source).stray with
    | some found =>
        obtain ⟨first, place⟩ := found
        obtain ⟨rest, lexes, stops⟩ := LexesTo.of_stray (Nat.le_refl _) (congrArg (Lexed.mk _) stray)
        exact ⟨_, .character lexes viable (piece?_eq_none_iff.mp stops)⟩
    | none =>
        have lexes : Lexes .start source.toList (Lexed.read source).tokens := by rw [← Lexed.read_eq_iff, ← stray]
        have incomplete (program : Derivation.Program) : program.tokens ≠ (Lexed.read source).tokens :=
          fun same => none program (by rwa [Derivation.Program.Spells, same])
        -- The empty text is a program, so there is a last token.
        obtain empty | ⟨before, last, whole⟩ := List.eq_nil_or_concat (Lexed.read source).tokens
        · exact absurd empty.symm (incomplete ⟨[]⟩)
        · rw [whole, List.concat_eq_append] at lexes viable incomplete
          exact ⟨_, .ending lexes viable incomplete⟩
  case neg =>
    cases run : Derivation.Program.read (Lexed.read source).tokens with
    | ok answer => exact absurd ⟨answer.1, [], by simp [(Derivation.Program.read_eq_ok.mp run).1]⟩ viable
    | error unread =>
        obtain ⟨taken, split, onwards, next⟩ := Derivation.Program.read_error run
        cases unread with
        | nil => exact absurd (by rwa [split, List.append_nil]) viable
        | cons token unread =>
            have begins : taken ++ [token] <+: (Lexed.read source).tokens := ⟨unread, by simp [split]⟩
            obtain ⟨after, left, lexes⟩ := LexesTo.of_front begins
            exact ⟨_, .token lexes onwards (next token rfl)⟩

/-- A text that is spelled by a derivation can only be refused for what it spawns. -/
theorem Derivation.Program.Spells.parse_eq {derivation : Derivation.Program} (spells : derivation.Spells source)
    (run : parse source = .error error) : ∃ place, error = .spawnWithoutCall place := by
  obtain ⟨whole, read⟩ := Derivation.Program.spells_iff.mp spells
  unfold parse Lexed.program at run
  rw [read, whole] at run
  dsimp only at run
  split at run
  case h_1 place stray => exact ⟨place, (Except.error.inj run).symm⟩
  case h_2 => cases run

/-- The first offence is the syntax error of a text, but for an operand of `spawn` that is no call. -/
theorem offence_iff :
    Offence source error ↔ parse source = .error error ∧ ∀ place, error ≠ .spawnWithoutCall place := by
  constructor
  · intro offence
    exact ⟨offence.parse_eq, by cases offence <;> simp⟩
  · rintro ⟨run, form⟩
    have none (derivation : Derivation.Program) : ¬ derivation.Spells source := by
      intro spells
      obtain ⟨place, stray⟩ := spells.parse_eq run
      exact form place stray
    obtain ⟨other, offence⟩ := exists_offence none
    rw [offence.parse_eq] at run
    rwa [← Except.error.inj run]

theorem Offence.not_spells (offence : Offence source error) (derivation : Derivation.Program) :
    ¬ derivation.Spells source := by
  obtain ⟨run, form⟩ := offence_iff.mp offence
  intro spells
  obtain ⟨place, stray⟩ := spells.parse_eq run
  exact form place stray

theorem Offence.unique {other : SyntaxError} (offence : Offence source error) (again : Offence source other) :
    other = error :=
  Except.error.inj (again.parse_eq.symm.trans offence.parse_eq)

end Offences

section FirstLines

variable {text other : String} {character : Char}

theorem firstLine_eq_iff :
    Text.firstLine text = text ↔ ∀ character ∈ text.toList, Text.isLineBreak character = false := by
  rw [Text.firstLine, ← String.toList_inj, String.toList_ofList, List.takeWhile_eq_self_iff]
  simp

theorem firstLine_append_eq_iff :
    Text.firstLine (text ++ other) = text ++ other ↔ Text.firstLine text = text ∧ Text.firstLine other = other := by
  simp only [firstLine_eq_iff, String.toList_append, List.forall_mem_append]

theorem firstLine_singleton_eq_iff :
    Text.firstLine (String.singleton character) = String.singleton character ↔ Text.isLineBreak character = false := by
  rw [firstLine_eq_iff, String.toList_singleton, List.forall_mem_singleton]

theorem isLineBreak_of_isDigit (digit : character.isDigit = true) : Text.isLineBreak character = false := by
  refine Bool.eq_false_iff.mpr fun breaks => ?_
  have place : character ∈ _ := decide_eq_true_iff.mp breaks
  simp only [List.mem_cons, List.not_mem_nil, or_false] at place
  obtain rfl | rfl | rfl | rfl | rfl | rfl | rfl | rfl | rfl | rfl := place <;> revert digit <;> decide

theorem firstLine_repr (number : Nat) : Text.firstLine number.repr = number.repr :=
  firstLine_eq_iff.mpr fun _ member => isLineBreak_of_isDigit (isDigit_of_mem_repr member)

end FirstLines

namespace SyntaxError

/-- The message that names the character or the token of a syntax error, and its place. -/
def naming : SyntaxError → String
  | .strayCharacter character place =>
      s!"No terminal matches '{character}' in the current parser context, " ++
        s!"at line {place.line} col {place.column}"
  | .unexpectedToken token => unexpected token.lexeme.terminal token.lexeme.text token.place
  | .unexpectedEnd place => unexpected "$END" "" place
  | .spawnWithoutCall place => (spawnWithoutCall place).message

/-- A stray character that breaks lines. -/
def BreaksLine : SyntaxError → Prop
  | .strayCharacter character _ => Text.isLineBreak character = true
  | _ => False

/-- A message names the offence unless it is cut there. -/
theorem message_eq_naming_iff {error : SyntaxError} : error.message = error.naming ↔ ¬ error.BreaksLine := by
  cases error with
  | strayCharacter character place =>
      have literals : ∀ literal ∈ ["No terminal matches '", "' in the current parser context, ", "at line ", " col "],
          Text.firstLine literal = literal := by decide
      simp only [List.forall_mem_cons] at literals
      obtain ⟨before, between, line, column, -⟩ := literals
      -- Only the character can break the line.
      have parts : naming (strayCharacter character place) =
          "No terminal matches '" ++ String.singleton character ++ "' in the current parser context, " ++
            ("at line " ++ place.line.repr ++ " col " ++ place.column.repr) := rfl
      change Text.firstLine (naming (strayCharacter character place)) = naming (strayCharacter character place) ↔ _
      simp only [parts, firstLine_append_eq_iff, firstLine_singleton_eq_iff, firstLine_repr, before, between, line,
        column, BreaksLine, Bool.not_eq_true, true_and, and_true]
  | unexpectedToken | unexpectedEnd | spawnWithoutCall => exact iff_of_true rfl not_false

theorem span_eq {error : SyntaxError} (form : ∀ place, error ≠ .spawnWithoutCall place) (file : Option String) :
    error.span file = { file := file, line := some error.place.line, column := some error.place.column } := by
  cases error with
  | spawnWithoutCall place => exact absurd rfl (form place)
  | _ => rfl

end SyntaxError

/-- The first offence is reported.  A text that no derivation spells has one first offence, and a
single syntax error is reported for it, which stands at the place of the offence: no earlier and no
later one.  The message names the character or the token there and the place, unless the offence is
a character that breaks lines. -/
theorem analyze_reports_offence {source : String}
    (none : ∀ derivation : Derivation.Program, ¬ derivation.Spells source) :
    ∃ error, Offence source error ∧ (∀ other, Offence source other → other = error) ∧ parse source = .error error ∧
      ∀ file fuel policy, ∃ diagnostic, analyze file fuel policy source = .ok (.unreadable [diagnostic]) ∧
        diagnostic.phase = .parser ∧ diagnostic.code = some .syntaxError ∧
        diagnostic.span = { file := file, line := some error.place.line, column := some error.place.column } ∧
        (diagnostic.message = error.naming ↔ ¬ error.BreaksLine) := by
  obtain ⟨error, offence⟩ := exists_offence none
  obtain ⟨run, form⟩ := offence_iff.mp offence
  refine ⟨error, offence, fun other again => offence.unique again, run, fun file fuel policy => ?_⟩
  refine ⟨error.diagnostic file, ?_, rfl, rfl, error.span_eq form file, SyntaxError.message_eq_naming_iff⟩
  simp only [analyze, run]

/-- A text that ends inside of a block is refused where its last token starts. -/
theorem analyze_reports_offence_ending :
    (∀ derivation : Derivation.Program, ¬ derivation.Spells "proc f() \x7b x;") ∧
      ∀ file fuel policy, ∃ diagnostic,
        analyze file fuel policy "proc f() \x7b x;" = .ok (.unreadable [diagnostic]) ∧
          diagnostic.span = { file := file, line := some 1, column := some 13 } ∧
          diagnostic.message = "Unexpected token Token('$END', '') at line 1, column 13." := by
  have run : parse "proc f() \x7b x;" = .error (.unexpectedEnd ⟨1, 13⟩) := by cbv
  have named : SyntaxError.naming (.unexpectedEnd ⟨1, 13⟩) =
      "Unexpected token Token('$END', '') at line 1, column 13." := by decide +kernel
  have none := (offence_iff.mpr ⟨run, by simp⟩).not_spells
  obtain ⟨error, -, -, again, reports⟩ := analyze_reports_offence none
  obtain rfl := Except.error.inj (run.symm.trans again)
  refine ⟨none, fun file fuel policy => ?_⟩
  obtain ⟨diagnostic, reported, -, -, span, message⟩ := reports file fuel policy
  exact ⟨diagnostic, reported, span, (message.mpr not_false).trans named⟩

/-- The single diagnostic for a text stands at its first offence and names it. -/
def NamesOffence (source : String) : Prop :=
  ∀ error, Offence source error → ∀ file fuel policy, ∃ diagnostic,
    analyze file fuel policy source = .ok (.unreadable [diagnostic]) ∧
      diagnostic.span = { file := file, line := some error.place.line, column := some error.place.column } ∧
      diagnostic.message = error.naming

/-- A vertical tab is no blank, and it breaks the line of the message that names it. -/
theorem not_namesOffence :
    ¬ ∀ source, (∀ derivation : Derivation.Program, ¬ derivation.Spells source) → NamesOffence source := by
  intro names
  have run : parse "proc f() \x7b x\x0b; \x7d" = .error (.strayCharacter '\x0b' ⟨1, 13⟩) := by cbv
  have offence := offence_iff.mpr ⟨run, by simp⟩
  obtain ⟨diagnostic, reported, -, named⟩ := names _ offence.not_spells _ offence none 0 .standard
  have same : [SyntaxError.diagnostic none (.strayCharacter '\x0b' ⟨1, 13⟩)] = [diagnostic] := by
    simpa only [analyze, run, Except.ok.injEq, Analysis.unreadable.injEq] using reported
  obtain rfl := (List.cons.inj same).1
  have legible : ¬ SyntaxError.BreaksLine (.strayCharacter '\x0b' ⟨1, 13⟩) := SyntaxError.message_eq_naming_iff.mp named
  exact legible rfl

end LifecycleHooks.Surface

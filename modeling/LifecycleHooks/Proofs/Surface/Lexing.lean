import LifecycleHooks.Proofs.Surface.Grammar
import LifecycleHooks.Surface.Lexer
import Mathlib

/-!
# Longest matches

The terminals of the grammar match sets of texts.  A text lexes when it can be cut from the left
into longest matches, of which a keyword comes before a name, and blanks and comments are dropped.
Reading tokens finds these matches, and stops where there is none.
-/

namespace LifecycleHooks.Surface

/-- The terminals of the grammar, with the blanks and the comments that are dropped. -/
inductive Terminal where
  | blank
  | comment
  | name
  | integer
  | hookName
  | keyword (keyword : Keyword)
  | mark (mark : Mark)
deriving DecidableEq, Repr

namespace Terminal

/-- The texts that a terminal matches. -/
inductive Matches : Terminal → List Char → Prop
  | blank {first : Char} {rest : List Char} (all : ∀ next ∈ first :: rest, isBlank next = true) :
      Matches .blank (first :: rest)
  | comment {rest : List Char} (all : ∀ next ∈ rest, next ≠ '\n') : Matches .comment ('#' :: rest)
  | name {first : Char} {rest : List Char} (start : isNameStart first = true)
      (all : ∀ next ∈ rest, isNamePart next = true) : Matches .name (first :: rest)
  | integer {first : Char} {rest : List Char} (all : ∀ next ∈ first :: rest, next.isDigit = true) :
      Matches .integer (first :: rest)
  | hookName {inner : List Char} (nonempty : inner ≠ []) (all : ∀ next ∈ inner, isHookPart next = true) :
      Matches .hookName ('`' :: (inner ++ ['`']))
  | keyword (word : Keyword) : Matches (.keyword word) word.text.toList
  | mark (sign : Mark) : Matches (.mark sign) [sign.character]

/-- The lexeme that a match writes, unless it is dropped. -/
def lexeme? : Terminal → List Char → Option Lexeme
  | .blank, _ | .comment, _ => none
  | .name, text => some (.name (String.ofList text))
  | .integer, text => some (.integer (String.ofList text))
  | .hookName, text => some (.hookName (String.ofList text.tail.dropLast))
  | .keyword word, _ => some (.keyword word)
  | .mark sign, _ => some (.mark sign)

/-- The match of a terminal at the front of a text is a longest one, and no terminal that matches
as much comes before it.  Names come last. -/
structure Longest (terminal : Terminal) (taken rest : List Char) : Prop where
  fits : terminal.Matches taken
  longest : ∀ {other : Terminal} {text : List Char}, other.Matches text → text <+: taken ++ rest →
    text.length ≤ taken.length
  first : ∀ {other : Terminal}, other.Matches taken → other = terminal ∨ other = .name

end Terminal

/-- A text that starts at `place` lexes as a list of tokens. -/
inductive Lexes : Position → List Char → List Token → Prop
  | done (place : Position) : Lexes place [] []
  | piece {place : Position} {terminal : Terminal} {taken rest : List Char} {tokens : List Token}
      (longest : terminal.Longest taken rest) (next : Lexes (taken.foldl Position.advance place) rest tokens) :
      Lexes place (taken ++ rest)
        (optionTokens (fun lexeme => [⟨lexeme, place⟩]) (terminal.lexeme? taken) ++ tokens)

section Characters

variable {first : Char}

theorem isBlank_iff : isBlank first = true ↔ first ∈ [' ', '\t', '\x0c', '\r', '\n'] :=
  decide_eq_true_iff

theorem isNameStart_not_blank (start : isNameStart first = true) : isBlank first = false := by
  refine Bool.eq_false_iff.mpr fun blank => ?_
  have place := isBlank_iff.mp blank
  simp only [List.mem_cons, List.not_mem_nil, or_false] at place
  obtain rfl | rfl | rfl | rfl | rfl := place <;> revert start <;> decide

theorem isDigit_not_blank (digit : first.isDigit = true) : isBlank first = false := by
  refine Bool.eq_false_iff.mpr fun blank => ?_
  have place := isBlank_iff.mp blank
  simp only [List.mem_cons, List.not_mem_nil, or_false] at place
  obtain rfl | rfl | rfl | rfl | rfl := place <;> revert digit <;> decide

theorem isDigit_not_nameStart (digit : first.isDigit = true) : isNameStart first = false := by
  simp [isNameStart, Char.isAlpha, Char.isUpper, Char.isLower, Char.isDigit, UInt32.le_iff_toNat_le, Char.ext_iff,
    ← UInt32.toNat_inj] at digit ⊢
  omega

end Characters

namespace Terminal

/-- The terminal that a character starts, with `name` for all keywords. -/
def ofStart? (first : Char) : Option Terminal :=
  if isBlank first then some .blank
  else if first = '#' then some .comment
  else if isNameStart first then some .name
  else if first.isDigit then some .integer
  else if first = '`' then some .hookName
  else (Mark.ofCharacter? first).map .mark

/-- The terminal itself, with `name` for all keywords. -/
def group : Terminal → Terminal
  | .keyword _ => .name
  | other => other

theorem ofStart?_name {first : Char} (start : isNameStart first = true) : ofStart? first = some .name := by
  have other : first ≠ '#' := by
    rintro rfl
    revert start
    decide
  simp [ofStart?, isNameStart_not_blank start, other, start]

theorem ofStart?_integer {first : Char} (digit : first.isDigit = true) : ofStart? first = some .integer := by
  have other : first ≠ '#' := by
    rintro rfl
    revert digit
    decide
  simp [ofStart?, isDigit_not_blank digit, other, isDigit_not_nameStart digit, digit]

theorem keyword_chars (word : Keyword) :
    ∃ first rest, word.text.toList = first :: rest ∧ isNameStart first = true ∧
      ∀ next ∈ rest, isNamePart next = true := by
  have start : word.text.toList.head?.any isNameStart = true := by cases word <;> decide
  have all : word.text.toList.tail.all isNamePart = true := by cases word <;> decide
  cases text : word.text.toList with
  | nil => simp [text] at start
  | cons first rest =>
      rw [text] at start all
      exact ⟨first, rest, rfl, by simpa using start, by simpa using all⟩

/-- The first character of a match decides which terminal it is, up to keywords. -/
theorem Matches.ofStart? {terminal : Terminal} {first : Char} {rest : List Char}
    (fits : terminal.Matches (first :: rest)) : ofStart? first = some terminal.group := by
  generalize text : first :: rest = taken at fits
  cases fits with
  | blank all =>
      obtain ⟨rfl, rfl⟩ := List.cons.inj text
      simp [Terminal.ofStart?, group, all first List.mem_cons_self]
  | comment all =>
      obtain ⟨rfl, rfl⟩ := List.cons.inj text
      decide
  | name start all =>
      obtain ⟨rfl, rfl⟩ := List.cons.inj text
      exact ofStart?_name start
  | integer all =>
      obtain ⟨rfl, rfl⟩ := List.cons.inj text
      exact ofStart?_integer (all first List.mem_cons_self)
  | hookName nonempty all =>
      obtain ⟨rfl, -⟩ := List.cons.inj text
      decide
  | keyword word =>
      obtain ⟨start, rest, split, isStart, -⟩ := keyword_chars word
      obtain ⟨rfl, -⟩ := List.cons.inj (text.trans split)
      exact ofStart?_name isStart
  | mark sign =>
      obtain ⟨rfl, -⟩ := List.cons.inj text
      cases sign <;> decide

theorem Matches.ne_nil {terminal : Terminal} {text : List Char} (fits : terminal.Matches text) : text ≠ [] := by
  cases fits with
  | keyword word =>
      obtain ⟨first, rest, split, -⟩ := keyword_chars word
      simp [split]
  | _ => simp

/-- All matches of names and of keywords are runs of name characters. -/
theorem Matches.nameParts {terminal : Terminal} {first : Char} {rest : List Char}
    (fits : terminal.Matches (first :: rest)) (named : terminal.group = .name) :
    ∀ next ∈ rest, isNamePart next = true := by
  generalize text : first :: rest = taken at fits
  cases fits with
  | name start all =>
      obtain ⟨rfl, rfl⟩ := List.cons.inj text
      exact all
  | keyword word =>
      obtain ⟨start, parts, split, -, all⟩ := keyword_chars word
      obtain ⟨rfl, rfl⟩ := List.cons.inj (text.trans split)
      exact all
  | _ => cases named

/-- What starts with the same character is compared with matches of the same terminal only. -/
theorem Longest.of_start {terminal : Terminal} {first : Char} {taken rest : List Char}
    (fits : terminal.Matches (first :: taken))
    (longest : ∀ {other : Terminal} {text : List Char}, other.group = terminal.group → other.Matches (first :: text) →
      text <+: taken ++ rest → text.length ≤ taken.length)
    (precedes : ∀ {other : Terminal}, other.group = terminal.group → other.Matches (first :: taken) →
      other = terminal ∨ other = .name) :
    Longest terminal (first :: taken) rest := by
  have grouped {other : Terminal} {text : List Char} (fits' : other.Matches (first :: text)) :
      other.group = terminal.group :=
    Option.some.inj (fits'.ofStart?.symm.trans fits.ofStart?)
  refine ⟨fits, fun {other text} fits' front => ?_, fun fits' => precedes (grouped fits') fits'⟩
  cases text with
  | nil => simp
  | cons next text =>
      obtain ⟨rfl, behind⟩ := List.cons_prefix_cons.mp front
      simpa using longest (grouped fits') fits' behind

theorem length_le_takeWhile {check : Char → Bool} {text rest : List Char} (all : ∀ next ∈ text, check next = true)
    (front : text <+: rest) : text.length ≤ (rest.takeWhile check).length := by
  obtain ⟨more, rfl⟩ := front
  rw [List.takeWhile_append_of_pos all, List.length_append]
  omega

/-- A longest match that is a run of characters. -/
theorem Longest.of_run {terminal : Terminal} {check : Char → Bool} {first : Char} {rest : List Char}
    (fits : terminal.Matches (first :: rest.takeWhile check))
    (parts : ∀ {other : Terminal} {text : List Char}, other.group = terminal.group → other.Matches (first :: text) →
      ∀ next ∈ text, check next = true)
    (precedes : ∀ {other : Terminal}, other.group = terminal.group → other.Matches (first :: rest.takeWhile check) →
      other = terminal ∨ other = .name) :
    Longest terminal (first :: rest.takeWhile check) (rest.dropWhile check) := by
  refine .of_start fits (fun same fits' front => ?_) precedes
  rw [List.takeWhile_append_dropWhile] at front
  exact length_le_takeWhile (parts same fits') front

theorem eq_of_group {terminal other : Terminal} (same : other.group = terminal.group)
    (single : terminal.group ≠ .name) : other = terminal := by
  cases terminal <;> cases other <;> simp_all [group]

theorem longest_blank {first : Char} {rest : List Char} (blank : isBlank first = true) :
    Longest .blank (first :: rest.takeWhile isBlank) (rest.dropWhile isBlank) := by
  refine .of_run (.blank ?_) (fun same fits => ?_) fun same _ => .inl (eq_of_group same nofun)
  · rw [List.forall_mem_cons]
    exact ⟨blank, fun next member => List.mem_takeWhile_imp member⟩
  · obtain rfl := eq_of_group same nofun
    cases fits with
    | blank all => exact fun next member => all next (List.mem_cons_of_mem _ member)

theorem longest_comment (rest : List Char) :
    Longest .comment ('#' :: rest.takeWhile (· ≠ '\n')) (rest.dropWhile (· ≠ '\n')) := by
  refine .of_run (.comment fun next member => ?_) (fun same fits => ?_) fun same _ => .inl (eq_of_group same nofun)
  · simpa using List.mem_takeWhile_imp member
  · obtain rfl := eq_of_group same nofun
    cases fits with
    | comment all => simpa using all

theorem longest_integer {first : Char} {rest : List Char} (digit : first.isDigit = true) :
    Longest .integer (first :: rest.takeWhile Char.isDigit) (rest.dropWhile Char.isDigit) := by
  refine .of_run (.integer ?_) (fun same fits => ?_) fun same _ => .inl (eq_of_group same nofun)
  · rw [List.forall_mem_cons]
    exact ⟨digit, fun next member => List.mem_takeWhile_imp member⟩
  · obtain rfl := eq_of_group same nofun
    cases fits with
    | integer all => exact fun next member => all next (List.mem_cons_of_mem _ member)

theorem Matches.ofText? {word : Keyword} {text : List Char} (fits : (Terminal.keyword word).Matches text) :
    Keyword.ofText? (String.ofList text) = some word := by
  cases fits
  rw [String.ofList_toList, Keyword.ofText?_text]

/-- A run of name characters is a keyword when it spells one, and else a name. -/
theorem longest_word {first : Char} (rest : List Char) (start : isNameStart first = true) :
    ∃ terminal : Terminal, terminal.Longest (first :: rest.takeWhile isNamePart) (rest.dropWhile isNamePart) ∧
      terminal.lexeme? (first :: rest.takeWhile isNamePart) =
        some (.ofWord (String.ofList (first :: rest.takeWhile isNamePart))) := by
  have named {other : Terminal} (same : other.group = .name) : other = .name ∨ ∃ word, other = .keyword word := by
    cases other <;> simp_all [group]
  unfold Lexeme.ofWord
  cases reserved : Keyword.ofText? (String.ofList (first :: rest.takeWhile isNamePart)) with
  | none =>
      refine ⟨.name, .of_run (.name start fun next member => List.mem_takeWhile_imp member)
        (fun same fits => fits.nameParts same) fun {other} same fits => ?_, rfl⟩
      obtain rfl | ⟨word, rfl⟩ := named same
      · exact .inl rfl
      · rw [fits.ofText?] at reserved
        cases reserved
  | some word =>
      have text : word.text = String.ofList (first :: rest.takeWhile isNamePart) := by
        simpa using List.find?_some reserved
      have fits : (Terminal.keyword word).Matches (first :: rest.takeWhile isNamePart) := by
        have matched := Matches.keyword word
        rwa [text, String.toList_ofList] at matched
      refine ⟨.keyword word, .of_run fits (fun same fits => fits.nameParts same) fun {other} same fits' => ?_, rfl⟩
      obtain rfl | ⟨other, rfl⟩ := named same
      · exact .inr rfl
      · have same := fits'.ofText?.symm.trans fits.ofText?
        exact .inl (by rw [Option.some.inj same])

theorem takeWhile_isHookPart {inner : List Char} (rest : List Char) (all : ∀ next ∈ inner, isHookPart next = true) :
    (inner ++ '`' :: rest).takeWhile isHookPart = inner := by
  rw [List.takeWhile_append_of_pos all]
  simp [isHookPart]

theorem longest_hookName {inner : List Char} (rest : List Char) (nonempty : inner ≠ [])
    (all : ∀ next ∈ inner, isHookPart next = true) : Longest .hookName ('`' :: (inner ++ ['`'])) rest := by
  refine .of_start (.hookName nonempty all) (fun same fits front => ?_) fun same _ => .inl (eq_of_group same nofun)
  obtain rfl := eq_of_group same nofun
  obtain ⟨more, front⟩ := front
  cases fits with
  | @hookName other _ all' =>
      -- Neither text holds a backtick, so both end at the first one.
      have agree : other = inner := by
        simp only [List.append_assoc, List.singleton_append] at front
        rw [← takeWhile_isHookPart rest all, ← takeWhile_isHookPart more all', front]
      simp [agree]

theorem longest_mark (sign : Mark) (rest : List Char) : Longest (.mark sign) [sign.character] rest := by
  have single : (Terminal.mark sign).group ≠ .name := nofun
  refine .of_start (.mark sign) (fun same fits _ => ?_) fun same _ => .inl (eq_of_group same single)
  obtain rfl := eq_of_group same single
  generalize text : sign.character :: _ = taken at fits
  cases fits
  simp [(List.cons.inj text).2]

end Terminal

open Terminal

/-- A piece of a text is the longest match at its front. -/
theorem piece?_longest {text : List Char} {piece : Piece} (found : piece? text = some piece) :
    ∃ (terminal : Terminal) (rest : List Char), text = piece.taken ++ rest ∧ terminal.Longest piece.taken rest ∧
      terminal.lexeme? piece.taken = piece.lexeme := by
  cases text with
  | nil => simp [piece?] at found
  | cons first rest =>
      simp only [piece?] at found
      split at found
      case isTrue blank =>
        obtain rfl := Option.some.inj found
        exact ⟨.blank, _, by simp, longest_blank blank, rfl⟩
      case isFalse =>
      split at found
      case isTrue comment =>
        obtain rfl := Option.some.inj found
        obtain rfl := comment
        exact ⟨.comment, _, by simp, longest_comment rest, rfl⟩
      case isFalse =>
      split at found
      case isTrue start =>
        obtain rfl := Option.some.inj found
        obtain ⟨terminal, longest, lexeme⟩ := longest_word rest start
        exact ⟨terminal, _, by simp, longest, lexeme⟩
      case isFalse =>
      split at found
      case isTrue digit =>
        obtain rfl := Option.some.inj found
        exact ⟨.integer, _, by simp, longest_integer digit, rfl⟩
      case isFalse =>
      split at found
      case isTrue hook =>
        split at found
        case isTrue closed =>
          obtain rfl := Option.some.inj found
          obtain rfl := hook
          obtain ⟨nonempty, next⟩ := closed
          obtain ⟨tail, after⟩ := List.head?_eq_some_iff.mp next
          have split : rest.takeWhile isHookPart ++ '`' :: tail = rest := by
            rw [← after]
            exact List.prefix_iff_eq_append.mp <| List.takeWhile_prefix _
          refine ⟨.hookName, tail, ?_, longest_hookName tail nonempty fun next => List.mem_takeWhile_imp, ?_⟩
          · simp [split]
          · simp [lexeme?]
        case isFalse => cases found
      case isFalse =>
        obtain ⟨sign, isMark, rfl⟩ := Option.map_eq_some_iff.mp found
        obtain rfl : sign.character = first := by simpa using List.find?_some isMark
        exact ⟨.mark sign, rest, rfl, longest_mark sign rest, rfl⟩

/-- Where a terminal matches there is a piece. -/
theorem exists_piece {terminal : Terminal} {taken : List Char} (fits : terminal.Matches taken) (rest : List Char) :
    ∃ piece, piece? (taken ++ rest) = some piece := by
  obtain ⟨first, others, rfl⟩ := List.exists_cons_of_ne_nil fits.ne_nil
  have start := fits.ofStart?
  simp only [List.cons_append, piece?]
  -- Blanks, comments, words and numbers need no more than their first character.
  iterate 4 (split; exact ⟨_, rfl⟩)
  split
  case isTrue hook =>
    obtain rfl := hook
    obtain rfl : terminal = .hookName := eq_of_group (Option.some.inj start.symm) nofun
    generalize text : '`' :: others = taken at fits
    cases fits with
    | @hookName inner nonempty all =>
        obtain rfl := (List.cons.inj text).2
        simp [takeWhile_isHookPart rest all, nonempty]
  case isFalse =>
    simp_all only [ofStart?, if_false]
    obtain ⟨sign, isMark, -⟩ := Option.map_eq_some_iff.mp start
    exact ⟨_, by rw [isMark]; rfl⟩

theorem Terminal.Longest.unique {terminal other : Terminal} {taken taken' rest rest' : List Char}
    (longest : terminal.Longest taken rest) (longest' : other.Longest taken' rest')
    (same : taken ++ rest = taken' ++ rest') : terminal = other ∧ taken = taken' ∧ rest = rest' := by
  have front : taken <+: taken' ++ rest' := same ▸ List.prefix_append taken rest
  have front' : taken' <+: taken ++ rest := same ▸ List.prefix_append taken' rest'
  have size : taken.length = taken'.length :=
    Nat.le_antisymm (longest'.longest longest.fits front) (longest.longest longest'.fits front')
  obtain ⟨rfl, rfl⟩ := List.append_inj same size
  refine ⟨?_, rfl, rfl⟩
  obtain rfl | rfl := longest.first longest'.fits
  · rfl
  · obtain rfl | rfl := longest'.first longest.fits <;> rfl

/-- The piece at the front of a text is what the longest match takes and writes. -/
theorem piece?_of_longest {terminal : Terminal} {taken rest : List Char} (longest : terminal.Longest taken rest) :
    piece? (taken ++ rest) = some ⟨terminal.lexeme? taken, taken⟩ := by
  obtain ⟨piece, run⟩ := exists_piece longest.fits rest
  obtain ⟨other, rest', split, longest', lexeme⟩ := piece?_longest run
  obtain ⟨rfl, same, -⟩ := longest.unique longest' split
  rw [run, same, lexeme]

namespace Lexed

theorem cons_eq {lexeme : Option Lexeme} {place : Position} {lexed : Lexed} :
    cons lexeme place lexed =
      ⟨optionTokens (fun lexeme => [⟨lexeme, place⟩]) lexeme ++ lexed.tokens, lexed.stray⟩ := by
  cases lexeme <;> rfl

/-- Reading goes on behind the longest match. -/
theorem readWithin_longest {terminal : Terminal} {taken rest : List Char} (longest : terminal.Longest taken rest)
    (fuel : Nat) (place : Position) :
    readWithin (fuel + 1) place (taken ++ rest) =
      ⟨optionTokens (fun lexeme => [⟨lexeme, place⟩]) (terminal.lexeme? taken) ++
        (readWithin fuel (taken.foldl Position.advance place) rest).tokens,
        (readWithin fuel (taken.foldl Position.advance place) rest).stray⟩ := by
  have found := piece?_of_longest longest
  obtain ⟨first, others, rfl⟩ := List.exists_cons_of_ne_nil longest.fits.ne_nil
  rw [List.cons_append] at found ⊢
  simp only [readWithin, found]
  rw [cons_eq, ← List.cons_append, List.drop_left]

theorem lexes_of_readWithin {fuel : Nat} {place : Position} {text : List Char} {tokens : List Token}
    (enough : text.length ≤ fuel) (run : readWithin fuel place text = ⟨tokens, none⟩) : Lexes place text tokens := by
  induction fuel generalizing place text tokens with
  | zero =>
      obtain rfl : text = [] := by simpa using enough
      obtain rfl : [] = tokens := (Lexed.mk.inj run).1
      exact .done place
  | succ fuel ih =>
      cases text with
      | nil =>
          obtain rfl : [] = tokens := (Lexed.mk.inj run).1
          exact .done place
      | cons first others =>
          cases found : piece? (first :: others) with
          | none => simp [readWithin, found] at run
          | some piece =>
              obtain ⟨terminal, rest, split, longest, -⟩ := piece?_longest found
              rw [split, readWithin_longest longest] at run
              obtain ⟨rfl, finished⟩ := Lexed.mk.inj run
              have size := List.length_pos_iff.mpr longest.fits.ne_nil
              have short : rest.length ≤ fuel := by
                rw [split, List.length_append] at enough
                omega
              rw [split]
              exact .piece longest (ih short (by rw [← finished]))

theorem readWithin_of_lexes {place : Position} {text : List Char} {tokens : List Token}
    (lexes : Lexes place text tokens) {fuel : Nat} (enough : text.length ≤ fuel) :
    readWithin fuel place text = ⟨tokens, none⟩ := by
  induction lexes generalizing fuel with
  | done place => cases fuel <;> rfl
  | @piece place terminal taken rest tokens longest next ih =>
      have size := List.length_pos_iff.mpr longest.fits.ne_nil
      rw [List.length_append] at enough
      obtain ⟨fuel, rfl⟩ : ∃ less, fuel = less + 1 := Nat.exists_eq_succ_of_ne_zero (by omega)
      rw [readWithin_longest longest, ih (by omega)]

/-- A text is read to its end just when it lexes. -/
theorem read_eq_iff {text : String} {tokens : List Token} :
    read text = ⟨tokens, none⟩ ↔ Lexes .start text.toList tokens :=
  ⟨lexes_of_readWithin (Nat.le_refl _), fun lexes => readWithin_of_lexes lexes (Nat.le_refl _)⟩

end Lexed

end LifecycleHooks.Surface

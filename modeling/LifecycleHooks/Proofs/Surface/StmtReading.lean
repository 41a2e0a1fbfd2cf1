import LifecycleHooks.Proofs.Surface.ExprReading
import LifecycleHooks.Proofs.Surface.TypeReading

/-!
# Reading statements

Statements and branches hold each other, so what is shown of their readers is shown for both at
once, by induction on how deeply they nest.
-/

namespace LifecycleHooks.Surface.Derivation

open LifecycleHooks.Surface.Parser

variable {depth : Nat}

theorem Block.readWith_sound {statement : Parser Stmt} (sound : Sound statement Stmt.tokens) :
    Sound (Block.readWith statement) Block.tokens :=
  .bind (expect_sound _) fun opening => .bind (.bounded fun size => itemsUntil_sound sound (size + 1)) fun answer =>
    .pure (by simp [Block.tokens_mk])

namespace Stmt

theorem readVar_sound (place : Position) : SoundAfter [⟨.keyword .var, place⟩] (readVar place) tokens :=
  .bind expectName_sound fun name => .bind (after?_sound TypeRef.read_sound) fun type =>
    .bind (after?_sound Expr.read_sound) fun value => .bind (expect_sound _) fun semicolon =>
      .pure (by simp [tokens])

theorem readLet_sound (place : Position) : SoundAfter [⟨.keyword .let, place⟩] (readLet place) tokens :=
  .bind expectName_sound fun name => .bind (after?_sound TypeRef.read_sound) fun type =>
    .bind (expect_sound _) fun equal => .bind Expr.read_sound fun value => .bind (expect_sound _) fun semicolon =>
      .pure (by simp [tokens])

theorem readReturn_sound (place : Position) : SoundAfter [⟨.keyword .return, place⟩] (readReturn place) tokens := by
  refine .bind (accept_sound _) fun semicolon? => ?_
  cases semicolon? with
  | some semicolon => exact .pure (by simp [tokens])
  | none =>
      exact .bind Expr.read_sound fun value => .bind (expect_sound _) fun semicolon =>
        .pure (by simp [tokens])

theorem readPlain_sound : Sound readPlain tokens := by
  refine .bind Expr.read_sound fun target => .bind (after?_sound Expr.read_sound) fun value? => ?_
  cases value? with
  | none => exact .bind (expect_sound _) fun semicolon => .pure (by simp [tokens])
  | some entry =>
      exact .bind (expect_sound _) fun semicolon => .pure (by simp [tokens, behindTokens])

end Stmt

theorem Branch.readWithin_sound_succ (statement : Sound (Stmt.readWithin depth) Stmt.tokens)
    (branch : ∀ place, SoundAfter [⟨.keyword .if, place⟩] (Branch.readWithin depth place) Branch.tokens)
    (place : Position) :
    SoundAfter [⟨.keyword .if, place⟩] (Branch.readWithin (depth + 1) place) Branch.tokens := by
  unfold Branch.readWithin
  refine .bind Expr.read_sound fun condition => .bind (Block.readWith_sound statement) fun yes =>
    .bind (accept_sound _) fun otherwise? => ?_
  cases otherwise? with
  | none => exact .pure (by simp [Branch.tokens])
  | some otherwise =>
      refine .bind (accept_sound _) fun inner? => ?_
      cases inner? with
      | none =>
          exact .bind (Block.readWith_sound statement) fun no =>
            .pure (by simp [Branch.tokens, Alternative.tokens])
      | some inner =>
          exact .bindFrom rfl (branch inner) fun no =>
            .pure (by simp [Branch.tokens, Alternative.tokens])

theorem Stmt.readWithin_sound_succ (statement : Sound (Stmt.readWithin depth) Stmt.tokens)
    (branch : ∀ place, SoundAfter [⟨.keyword .if, place⟩] (Branch.readWithin depth place) Branch.tokens) :
    Sound (Stmt.readWithin (depth + 1)) Stmt.tokens := by
  unfold Stmt.readWithin
  refine .peek fun found => ?_
  split
  case h_1 place => exact .skip (readVar_sound place)
  case h_2 place => exact .skip (readLet_sound place)
  case h_3 place => exact .skip (readReturn_sound place)
  case h_4 place => exact .skip (.bindFrom rfl (branch place) fun inner => .pure (by simp [tokens]))
  case h_5 place =>
    exact .skip (.bind Expr.read_sound fun condition => .bind (Block.readWith_sound statement) fun body =>
      .pure (by simp [tokens]))
  case h_6 place | h_7 place => exact .skip (.bind (expect_sound _) fun semicolon => .pure (by simp [tokens]))
  case h_8 place => exact .skip (.bind (Block.readWith_sound statement) fun block => .pure (by simp [tokens]))
  case h_9 place =>
    exact .skip (.bind Expr.read_sound fun operand => .bind (expect_sound _) fun semicolon => .pure (by simp [tokens]))
  case h_10 => exact .of readPlain_sound

theorem readWithin_sound (depth : Nat) :
    Sound (Stmt.readWithin depth) Stmt.tokens ∧
      ∀ place, SoundAfter [⟨.keyword .if, place⟩] (Branch.readWithin depth place) Branch.tokens := by
  induction depth with
  | zero => exact ⟨.refuse, fun place => .refuse⟩
  | succ depth ih => exact ⟨Stmt.readWithin_sound_succ ih.1 ih.2, Branch.readWithin_sound_succ ih.1 ih.2⟩

theorem Stmt.read_sound : Sound Stmt.read Stmt.tokens :=
  .bounded fun size => (readWithin_sound (size + 1)).1

theorem Stmt.stops_tokens (statement : Stmt) (rest : List Token) :
    Stops [.mark .rightBrace, .keyword .else] (statement.tokens ++ rest) := by
  have expression (expr : Expr) (rest : List Token) :
      Stops [.mark .rightBrace, .keyword .else] (expr.tokens ++ rest) :=
    Expr.stops_tokens (by simp [Expr.Begins]) expr rest
  cases statement with
  | assign target equal value semicolon => simpa [tokens] using expression target _
  | expr expr semicolon => simpa [tokens] using expression expr _
  | branch inner =>
      cases inner
      simp [tokens, Branch.tokens_mk]
  | _ => simp [tokens]

theorem Block.stops_tokens {lexemes : List Lexeme} (block : Block) (others : .mark .leftBrace ∉ lexemes)
    (rest : List Token) : Stops lexemes (block.tokens ++ rest) := by
  cases block
  simpa [Block.tokens_mk] using others

theorem Block.readWith_reads {statement : Parser Stmt} {opening closing : Position} {statements : List Stmt}
    (reads : ∀ inner ∈ statements, Reads statement Stmt.tokens [.keyword .else] inner) :
    Reads (Block.readWith statement) Block.tokens [] (.mk opening statements closing) := by
  intro rest follows
  have items :
      Reads (bounded fun size => itemsUntil statement (.mark .rightBrace) (size + 1)) _ [] (statements, closing) :=
    itemsUntil_bounded_reads (by simp) (fun inner _ => inner.stops_tokens) reads
  unfold Block.readWith
  simp [Block.tokens_mk, items.map]

namespace Stmt

theorem readVar_reads (place : Position) (name : Word) (type : Option (Position × TypeRef))
    (value : Option (Position × Expr)) (semicolon : Position) (rest : List Token) :
    readVar place ((Stmt.var place name type value semicolon).tokens.tail ++ rest) =
      .ok (.var place name type value semicolon, rest) := by
  have type := after?_reads (.mark .colon) fun entry (_ : entry ∈ type) => TypeRef.read_reads entry.2
  have valued := after?_reads (.mark .equal) fun entry (_ : entry ∈ value) => Expr.read_reads entry.2
  have ends : Stops [.mark .colon, .mark .leftBracket]
      (optionTokens (behindTokens Expr.tokens (.mark .equal)) value ++ ⟨.mark .semicolon, semicolon⟩ :: rest) := by
    cases value <;> simp [behindTokens]
  unfold readVar
  simp [tokens, type.bind _ ends, valued.bind]

theorem readLet_reads (place : Position) (name : Word) (type : Option (Position × TypeRef)) (equal : Position)
    (value : Expr) (semicolon : Position) (rest : List Token) :
    readLet place ((Stmt.let place name type equal value semicolon).tokens.tail ++ rest) =
      .ok (.let place name type equal value semicolon, rest) := by
  have type := after?_reads (.mark .colon) fun entry (_ : entry ∈ type) => TypeRef.read_reads entry.2
  have value := Expr.read_reads value
  unfold readLet
  simp [tokens, type.bind, value.bind]

theorem readReturn_reads (place : Position) (value : Option Expr) (semicolon : Position) (rest : List Token) :
    readReturn place ((Stmt.return place value semicolon).tokens.tail ++ rest) =
      .ok (.return place value semicolon, rest) := by
  unfold readReturn
  cases value with
  | none => simp [tokens]
  | some value =>
      have begins : Stops [.mark .semicolon] (value.tokens ++ ⟨.mark .semicolon, semicolon⟩ :: rest) :=
        Expr.stops_tokens (by simp [Expr.Begins]) value _
      have value := Expr.read_reads value
      simp [tokens, accept_bind_of_stops _ begins, value.bind]

theorem readPlain_assign (target : Expr) (equal : Position) (value : Expr) (semicolon : Position) (rest : List Token) :
    readPlain ((Stmt.assign target equal value semicolon).tokens ++ rest) =
      .ok (.assign target equal value semicolon, rest) := by
  have valued := after?_reads (.mark .equal) fun entry (_ : entry ∈ some (equal, value)) => Expr.read_reads entry.2
  have split : (Stmt.assign target equal value semicolon).tokens ++ rest = target.tokens ++
      (optionTokens (behindTokens Expr.tokens (.mark .equal)) (some (equal, value)) ++
        ⟨.mark .semicolon, semicolon⟩ :: rest) := by
    simp [tokens, behindTokens]
  unfold readPlain
  rw [split, (Expr.read_reads target).bind _ (by simp [behindTokens]), valued.bind _ (by simp)]
  simp

theorem readPlain_expr (expr : Expr) (semicolon : Position) (rest : List Token) :
    readPlain ((Stmt.expr expr semicolon).tokens ++ rest) = .ok (.expr expr semicolon, rest) := by
  have absent := after?_reads (.mark .equal) fun entry (_ : entry ∈ none) => Expr.read_reads entry.2
  have split : (Stmt.expr expr semicolon).tokens ++ rest = expr.tokens ++
      (optionTokens (behindTokens Expr.tokens (.mark .equal)) none ++ ⟨.mark .semicolon, semicolon⟩ :: rest) := by
    simp [tokens]
  unfold readPlain
  rw [split, (Expr.read_reads expr).bind _ (by simp), absent.bind _ (by simp)]
  simp

/-- No keyword of a statement begins an expression. -/
theorem readWithin_plain (expr : Expr) (rest : List Token) :
    readWithin (depth + 1) (expr.tokens ++ rest) = readPlain (expr.tokens ++ rest) := by
  obtain ⟨⟨lexeme, place⟩, tail, split, begins⟩ := expr.exists_begins
  rw [split]
  unfold readWithin
  simp only [List.cons_append, peek_bind, List.head?_cons]
  cases lexeme with
  | keyword word => cases word <;> first | rfl | exact begins.elim
  | _ => rfl

end Stmt

section Nesting

variable
  (statements : ∀ statement : Stmt, statement.tokens.length ≤ depth →
    Reads (Stmt.readWithin depth) Stmt.tokens [.keyword .else] statement)
  (branches : ∀ place condition yes no, (Branch.mk place condition yes no).tokens.length ≤ depth + 1 →
    Reads (Branch.readWithin depth place) (fun branch => branch.tokens.tail) [.keyword .else]
      (.mk place condition yes no))

include statements

theorem Block.reads_of_short (block : Block) (short : block.tokens.length ≤ depth) :
    Reads (Block.readWith (Stmt.readWithin depth)) Block.tokens [] block := by
  obtain ⟨opening, items, closing⟩ := block
  refine Block.readWith_reads fun inner member => statements inner ?_
  have : inner.tokens.length < (untilTokens Stmt.tokens (.mark .rightBrace) (items, closing)).length :=
    length_written_lt_untilTokens member
  simp only [Block.tokens_mk, List.length_cons] at short
  omega

include branches

theorem Stmt.readWithin_reads_succ (statement : Stmt) (enough : statement.tokens.length ≤ depth + 1) :
    Reads (Stmt.readWithin (depth + 1)) Stmt.tokens [.keyword .else] statement := by
  intro rest follows
  cases statement with
  | var place name type value semicolon =>
      have run := readVar_reads place name type value semicolon rest
      simpa [readWithin, tokens] using run
  | «let» place name type equal value semicolon =>
      have run := readLet_reads place name type equal value semicolon rest
      simpa [readWithin, tokens] using run
  | assign target equal value semicolon =>
      have run := readPlain_assign target equal value semicolon rest
      simp only [tokens, List.append_assoc] at run ⊢
      rw [readWithin_plain, run]
  | expr expr semicolon =>
      have run := readPlain_expr expr semicolon rest
      simp only [tokens, List.append_assoc] at run ⊢
      rw [readWithin_plain, run]
  | «return» place value semicolon =>
      have run := readReturn_reads place value semicolon rest
      simpa [readWithin, tokens] using run
  | branch inner =>
      obtain ⟨place, condition, yes, no⟩ := inner
      have inner := branches place condition yes no enough
      have run := inner.map Stmt.branch follows
      simpa [readWithin, tokens, Branch.tokens_mk] using run
  | «while» place condition body =>
      have short : body.tokens.length ≤ depth := by simp [tokens] at enough; omega
      have begins : Stops [.mark .dot, .mark .leftParen] (body.tokens ++ rest) := body.stops_tokens (by simp) rest
      have condition := Expr.read_reads condition
      have body := Block.reads_of_short statements body short
      simp [readWithin, tokens, condition.bind _ begins, body.map]
  | «break» place semicolon => simp [readWithin, tokens]
  | «continue» place semicolon => simp [readWithin, tokens]
  | block place block =>
      have block := Block.reads_of_short statements block (by simpa [tokens] using enough)
      simp [readWithin, tokens, block.map]
  | spawn place operand semicolon =>
      have operand := Expr.read_reads operand
      simp [readWithin, tokens, operand.bind]

theorem Branch.readWithin_reads_succ (place : Position) (condition : Expr) (yes : Block) (no : Option Alternative)
    (enough : (Branch.mk place condition yes no).tokens.length ≤ depth + 2) :
    Reads (Branch.readWithin (depth + 1) place) (fun branch => branch.tokens.tail) [.keyword .else]
      (.mk place condition yes no) := by
  intro rest follows
  obtain ⟨token, tail, split, -⟩ := condition.exists_begins
  have size : 0 < condition.tokens.length := by simp [split]
  rw [Branch.tokens_mk] at enough
  simp only [List.length_cons, List.length_append] at enough
  have begins (more : List Token) : Stops [.mark .dot, .mark .leftParen] (yes.tokens ++ more) :=
    yes.stops_tokens (by simp) more
  have condition := Expr.read_reads condition
  have yes := Block.reads_of_short statements yes (by omega)
  unfold Branch.readWithin
  cases no with
  | none => simp [Branch.tokens_mk, condition.bind _ (begins _), yes.bind, accept_bind_of_stops _ follows]
  | some no =>
      cases no with
      | block otherwise block =>
          have plain : Stops [.keyword .if] (block.tokens ++ rest) := block.stops_tokens (by simp) rest
          have block := Block.reads_of_short statements block (by
            simp only [optionTokens_some, Alternative.tokens, List.length_cons] at enough
            omega)
          simp [Branch.tokens_mk, Alternative.tokens, condition.bind _ (begins _), yes.bind,
            accept_bind_of_stops _ plain, block.map]
      | branch otherwise inner =>
          obtain ⟨start, test, yes', no⟩ := inner
          have inner := branches start test yes' no (by
            simp only [optionTokens_some, Alternative.tokens, List.length_cons] at enough
            omega)
          have run (form : Branch → Branch) := inner.map form follows
          simp only [Branch.tokens_mk, List.tail_cons, List.append_assoc] at run
          simp [Branch.tokens_mk, Alternative.tokens, condition.bind _ (begins _), yes.bind, run]

end Nesting

/-- A statement takes more tokens than it nests deep.  A branch takes two more: its condition and the
braces of its block nest no deeper. -/
theorem readWithin_reads (depth : Nat) :
    (∀ statement : Stmt, statement.tokens.length ≤ depth →
      Reads (Stmt.readWithin depth) Stmt.tokens [.keyword .else] statement) ∧
    ∀ place condition yes no, (Branch.mk place condition yes no).tokens.length ≤ depth + 1 →
      Reads (Branch.readWithin depth place) (fun branch => branch.tokens.tail) [.keyword .else]
        (.mk place condition yes no) := by
  induction depth with
  | zero =>
      refine ⟨fun statement enough => ?_, fun place condition yes no enough => ?_⟩
      · have empty : statement.tokens = [] := List.length_eq_zero_iff.mp (Nat.le_zero.mp enough)
        have begins := statement.stops_tokens [⟨.keyword .else, .start⟩]
        simp [empty] at begins
      · obtain ⟨token, tail, split, -⟩ := condition.exists_begins
        simp [Branch.tokens_mk, split] at enough
  | succ depth ih => exact ⟨Stmt.readWithin_reads_succ ih.1 ih.2, Branch.readWithin_reads_succ ih.1 ih.2⟩

theorem Stmt.read_reads (statement : Stmt) : Reads Stmt.read Stmt.tokens [.keyword .else] statement :=
  .bounded fun size enough => (readWithin_reads (size + 1)).1 statement (Nat.le_succ_of_le enough)

theorem Block.read_reads (block : Block) : Reads (Block.readWith Stmt.read) Block.tokens [] block := by
  obtain ⟨opening, statements, closing⟩ := block
  exact Block.readWith_reads fun inner _ => Stmt.read_reads inner

end LifecycleHooks.Surface.Derivation

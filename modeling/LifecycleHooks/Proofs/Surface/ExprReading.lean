import LifecycleHooks.Proofs.Surface.Reading

/-!
# Reading expressions

The rule for field access is left-recursive: what is read first is the innermost subject, and the
names behind it are put around it one by one.
-/

namespace LifecycleHooks.Surface.Derivation.Expr

open LifecycleHooks.Surface.Parser

/-- Whether an expression can begin with a lexeme. -/
def Begins : Lexeme → Prop
  | .name _ | .integer _ | .keyword .true | .keyword .false | .mark .leftParen => True
  | _ => False

theorem exists_begins : (expr : Expr) → ∃ token tail, expr.tokens = token :: tail ∧ Begins token.lexeme
  | .call callee opening args closing => ⟨_, _, tokens_call callee opening args closing, trivial⟩
  | .name word => ⟨word.name, [], rfl, trivial⟩
  | .integer digits => ⟨digits.integer, [], rfl, trivial⟩
  | .true place => ⟨⟨.keyword .true, place⟩, [], rfl, trivial⟩
  | .false place => ⟨⟨.keyword .false, place⟩, [], rfl, trivial⟩
  | .paren opening inner closing => ⟨⟨.mark .leftParen, opening⟩, _, rfl, trivial⟩
  | .field subject dot member => by
      obtain ⟨token, tail, split, begins⟩ := exists_begins subject
      exact ⟨token, tail ++ [⟨.mark .dot, dot⟩, member.name], by simp [tokens, split], begins⟩

theorem stops_tokens {lexemes : List Lexeme} (others : ∀ lexeme ∈ lexemes, ¬ Begins lexeme) (expr : Expr)
    (rest : List Token) : Stops lexemes (expr.tokens ++ rest) := by
  obtain ⟨token, tail, split, begins⟩ := exists_begins expr
  rw [split, List.cons_append, stops_cons]
  exact fun member => others _ member begins

theorem readFields_sound (fuel : Nat) (subject : Expr) :
    SoundAfter subject.tokens (readFields fuel subject) tokens := by
  induction fuel generalizing subject with
  | zero => exact .pure rfl
  | succ fuel ih =>
      refine .bind (accept_sound _) fun dot? => ?_
      cases dot? with
      | none => exact .pure (by simp)
      | some dot =>
          refine .bind expectName_sound fun member => ?_
          simpa [tokens] using ih (.field subject dot member)

theorem readPrimary_sound {inside : Parser Expr} (sound : Sound inside tokens) : Sound (readPrimary inside) tokens := by
  refine .peek fun found => ?_
  split
  case h_1 text place =>
    refine .skip (.bind (accept_sound _) fun opening? => ?_)
    cases opening? with
    | none => exact .pure (by simp [tokens, Word.name])
    | some opening =>
        exact .bind (listed_sound sound) fun answer =>
          .pure (by simp [tokens_call, Word.name, listedTokens])
  case h_2 digits place => exact .skip (.pure (by simp [tokens, Word.integer]))
  case h_3 place | h_4 place => exact .skip (.pure (by simp [tokens]))
  case h_5 opening =>
    exact .skip (.bind sound fun inner => .bind (expect_sound _) fun closing => .pure (by simp [tokens]))
  case h_6 => exact .of .refuse

theorem readWithin_sound (depth : Nat) : Sound (readWithin depth) tokens := by
  induction depth with
  | zero => exact .refuse
  | succ depth ih =>
      exact .bind (readPrimary_sound ih) fun subject => .bounded fun size => readFields_sound size subject

theorem read_sound : Sound read tokens :=
  .bounded fun size => readWithin_sound (size + 1)

section Completeness

variable {inside : Parser Expr} {expr : Expr} {rest : List Token}

/-- The innermost subject of an expression is read first, and the field names behind it lead from
the subject to the expression. -/
def ReadsFrom (inside : Parser Expr) (expr : Expr) (rest : List Token) : Prop :=
  ∃ subject behind fields, readPrimary inside (expr.tokens ++ rest) = .ok (subject, behind) ∧
    fields + rest.length ≤ behind.length ∧
    ∀ fuel, readFields (fields + fuel) subject behind = readFields fuel expr rest

theorem ReadsFrom.primary (run : readPrimary inside (expr.tokens ++ rest) = .ok (expr, rest)) :
    ReadsFrom inside expr rest :=
  ⟨expr, rest, 0, run, by simp, fun fuel => by rw [Nat.zero_add]⟩

theorem ReadsFrom.field {dot : Position} {member : Word}
    (subject : ReadsFrom inside expr (⟨.mark .dot, dot⟩ :: member.name :: rest)) :
    ReadsFrom inside (.field expr dot member) rest := by
  obtain ⟨innermost, behind, fields, run, enough, leads⟩ := subject
  refine ⟨innermost, behind, fields + 1, by simpa [tokens] using run, by simp at enough; omega, fun fuel => ?_⟩
  calc readFields (fields + 1 + fuel) innermost behind
      _ = readFields (fields + (fuel + 1)) innermost behind := by rw [Nat.add_right_comm, Nat.add_assoc]
      _ = readFields (fuel + 1) expr (⟨.mark .dot, dot⟩ :: member.name :: rest) := leads (fuel + 1)
      _ = readFields fuel (.field expr dot member) rest := by simp [readFields]

theorem readsFrom {depth : Nat}
    (reads : ∀ expr : Expr, expr.tokens.length ≤ depth → Reads inside tokens [.mark .dot, .mark .leftParen] expr) :
    (expr : Expr) → expr.tokens.length ≤ depth + 1 → {rest : List Token} → Stops [.mark .leftParen] rest →
      ReadsFrom inside expr rest
  | .name word, _, rest, follows => .primary (by simp [readPrimary, tokens, Word.name, accept_bind_of_stops _ follows])
  | .integer digits, _, rest, _ => .primary (by simp [readPrimary, tokens, Word.integer])
  | .true place, _, rest, _ => .primary (by simp [readPrimary, tokens])
  | .false place, _, rest, _ => .primary (by simp [readPrimary, tokens])
  | .call callee opening args closing, enough, rest, _ => .primary (by
      have short (expr : Expr) (member : expr ∈ itemsOf args) : expr.tokens.length ≤ depth := by
        have : expr.tokens.length < (listedTokens tokens .rightParen (args, closing)).length :=
          length_written_lt_listedTokens member
        simp only [tokens_call, List.length_cons] at enough
        omega
      have list : Reads (listed inside .rightParen) _ [] (args, closing) := listed_reads (by simp) (by simp)
        (fun list _ => stops_tokens (by simp [Begins]) list.first) fun expr member => reads expr (short expr member)
      simp [readPrimary, tokens_call, Word.name, list.map])
  | .paren opening inner closing, enough, rest, _ => .primary (by
      have inner := reads inner (by simp [tokens] at enough; omega)
      simp [readPrimary, tokens, inner.bind])
  | .field subject dot member, enough, rest, _ =>
      .field (readsFrom reads subject (by simp [tokens] at enough; omega) (by simp))

theorem readWithin_reads {depth : Nat} (expr : Expr) (enough : expr.tokens.length ≤ depth) :
    Reads (readWithin depth) tokens [.mark .dot, .mark .leftParen] expr := by
  induction depth generalizing expr with
  | zero =>
      obtain ⟨token, tail, split, -⟩ := exists_begins expr
      simp [split] at enough
  | succ depth ih =>
      intro rest follows
      -- All field names are read, and the fuel that is left meets a token that is no dot.
      obtain ⟨subject, behind, fields, run, bound, leads⟩ := readsFrom ih expr enough (follows.subset (by simp))
      obtain ⟨fuel, size⟩ : ∃ fuel, behind.length = fields + fuel := Nat.exists_eq_add_of_le (by omega)
      unfold readWithin
      rw [bind_of_ok run, bounded_run, size, leads]
      cases fuel with
      | zero => rfl
      | succ fuel =>
          have ends : Stops [.mark .dot] rest := follows.subset (by simp)
          simp [readFields, accept_bind_of_stops _ ends]

theorem read_reads (expr : Expr) : Reads read tokens [.mark .dot, .mark .leftParen] expr :=
  .bounded fun _ enough => readWithin_reads expr (Nat.le_succ_of_le enough)

end Completeness

end LifecycleHooks.Surface.Derivation.Expr

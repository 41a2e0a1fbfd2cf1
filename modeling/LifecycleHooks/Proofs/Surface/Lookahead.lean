import LifecycleHooks.Proofs.Surface.Viability

/-!
# One token of look-ahead

A reader stops in front of a token without having looked at what is behind it.  So it answers or
refuses there in the same way when other tokens stand behind, and a refused token cannot follow
what was read in any program.  How deeply a reader may nest is bounded by the tokens that are left,
behind the token as well, so two readers are compared whose bounds differ.
-/

namespace LifecycleHooks.Surface

namespace Parser

variable {Item Result : Type}

/-- The tokens that are left unread. -/
def unread : Except (List Token) (Item × List Token) → List Token
  | .ok (_, rest) => rest
  | .error rest => rest

/-- The same outcome with other tokens left unread. -/
def leaving (rest : List Token) : Except (List Token) (Item × List Token) → Except (List Token) (Item × List Token)
  | .ok (item, _) => .ok (item, rest)
  | .error _ => .error rest

theorem unread_leaving (rest : List Token) (outcome : Except (List Token) (Item × List Token)) :
    unread (leaving rest outcome) = rest := by
  cases outcome <;> rfl

theorem leaving_leaving (rest others : List Token) (outcome : Except (List Token) (Item × List Token)) :
    leaving rest (leaving others outcome) = leaving rest outcome := by
  cases outcome <;> rfl

/-- A parser leaves the last of these tokens unread.  When it stops at a token with fewer than
`size` tokens before it, the other parser has the same outcome there, whatever tokens are behind. -/
structure AlikeAt (size : Nat) (parser other : Parser Item) (tokens : List Token) : Prop where
  leaves : unread (parser tokens) <:+ tokens
  alike : ∀ ⦃read token rest⦄, tokens = read ++ token :: rest → read.length < size →
    unread (parser tokens) = token :: rest → ∀ behind,
      other (read ++ token :: behind) = leaving (token :: behind) (parser tokens)

/-- Two parsers have the same outcomes where fewer than `size` tokens are read. -/
def Alike (size : Nat) (parser other : Parser Item) : Prop := ∀ tokens, AlikeAt size parser other tokens

/-- Two parsers are alike on tokens that begin with a token that was looked at, or on no tokens if
there was none. -/
def AlikeOn (found : Option Token) (size : Nat) (parser other : Parser Item) : Prop :=
  ∀ ⦃tokens⦄, tokens.head? = found → AlikeAt size parser other tokens

variable {parser other : Parser Item} {next following : Item → Parser Result} {size small : Nat} {token : Token}
  {found : Option Token} {lexeme : Lexeme}

theorem Alike.mono (alike : Alike size parser other) (less : small ≤ size) : Alike small parser other :=
  fun tokens => ⟨(alike tokens).leaves, fun _ _ _ split short => (alike tokens).alike split (by omega)⟩

/-- Where nothing is read, nothing is said of the second parser. -/
theorem Alike.unbound (alike : Alike 0 parser other) (another : Parser Item) : Alike 0 parser another :=
  fun tokens => ⟨(alike tokens).leaves, fun _ _ _ _ short => absurd short (Nat.not_lt_zero _)⟩

/-- A property of two bounds is shown by taking one level of nesting off both, as long as it holds
of nothing that is read. -/
theorem alikeByDepth {motive : (size depth other : Nat) → Prop}
    (unbound : ∀ {depth other : Nat} (another : Nat), motive 0 depth other → motive 0 depth another)
    (none : motive 0 0 0)
    (step : ∀ {size depth other}, motive (size - 1) depth other → motive size (depth + 1) (other + 1))
    {size depth other : Nat} (enough : size ≤ depth) (enough' : size ≤ other) : motive size depth other := by
  have nothing (depth : Nat) : motive 0 depth depth := by
    induction depth with
    | zero => exact none
    | succ depth ih => exact step ih
  induction size generalizing depth other with
  | zero => exact unbound other (nothing depth)
  | succ size ih =>
      cases depth with
      | zero => omega
      | succ depth =>
          cases other with
          | zero => omega
          | succ other => exact step (ih (Nat.le_of_succ_le_succ enough) (Nat.le_of_succ_le_succ enough'))

/-- A parser that leaves all its tokens does not look at them. -/
theorem Alike.ofStays (outcome : Except (List Token) (Item × List Token))
    (stays : ∀ tokens, parser tokens = leaving tokens outcome) : Alike size parser parser := by
  refine fun tokens => ⟨by simp [stays, unread_leaving], fun read token rest split _ left behind => ?_⟩
  rw [stays, unread_leaving] at left
  obtain rfl : read = [] := by simpa [left] using split
  rw [List.nil_append, stays, stays, leaving_leaving]

theorem Alike.pure (item : Item) : Alike size (pure item) (pure item) :=
  .ofStays (.ok (item, [])) fun _ => rfl

theorem Alike.refuse : Alike size (refuse : Parser Item) refuse :=
  .ofStays (.error []) fun _ => rfl

/-- An answer in front of some tokens is given again when what is behind the last of them differs. -/
theorem Alike.answers (alike : Alike size parser other) {taken kept rest : List Token} {item : Item}
    (short : (taken ++ kept).length < size)
    (run : parser (taken ++ (kept ++ token :: rest)) = .ok (item, kept ++ token :: rest)) (behind : List Token) :
    other (taken ++ (kept ++ token :: behind)) = .ok (item, kept ++ token :: behind) := by
  cases kept with
  | nil =>
      rw [List.append_nil] at short
      rw [List.nil_append] at run ⊢
      have same := (alike _).alike rfl short (by rw [run]; rfl) behind
      rw [run] at same
      exact same
  | cons first kept =>
      have less : taken.length < size := by
        rw [List.length_append] at short
        omega
      rw [List.cons_append] at run ⊢
      have same := (alike _).alike rfl less (by rw [run]; rfl) (kept ++ token :: behind)
      rw [run] at same
      exact same

/-- The second of two parsers reads less when the first one takes some tokens. -/
theorem Alike.bindTaking (least : Nat)
    (takes : ∀ ⦃tokens item rest⦄, parser tokens = .ok (item, rest) → rest.length + least ≤ tokens.length)
    (first : Alike size parser other) (second : ∀ item, Alike (size - least) (next item) (following item)) :
    Alike size (parser >>= next) (other >>= following) := by
  intro tokens
  cases run : parser tokens with
  | error left =>
      have ran : (parser >>= next) tokens = .error left := by rw [bind_run, run]
      have leaves := (first tokens).leaves
      rw [run] at leaves
      refine ⟨by rwa [ran], fun read token rest split short stops behind => ?_⟩
      rw [ran] at stops ⊢
      have same := (first tokens).alike split short (by rwa [run]) behind
      rw [run] at same
      rw [bind_run, same]
      rfl
  | ok answer =>
      obtain ⟨item, left⟩ := answer
      have ran : (parser >>= next) tokens = next item left := bind_of_ok run
      have leaves := (first tokens).leaves
      have taking := takes run
      rw [run] at leaves
      obtain ⟨taken, rfl⟩ : left <:+ tokens := leaves
      refine ⟨by rw [ran]; exact (second item left).leaves.trans (List.suffix_append _ _), ?_⟩
      intro read token rest split short stops behind
      rw [ran] at stops ⊢
      -- The token that the second parser stops at is among those that the first one has left.
      obtain ⟨kept, rfl⟩ : token :: rest <:+ left := stops ▸ (second item left).leaves
      obtain rfl : taken ++ kept = read := by
        rw [← List.append_assoc] at split
        exact List.append_cancel_right split
      rw [List.append_assoc, bind_of_ok (first.answers short run behind)]
      refine (second item _).alike rfl ?_ stops behind
      simp only [List.length_append] at taking short
      omega

theorem Alike.bind (first : Alike size parser other) (second : ∀ item, Alike size (next item) (following item)) :
    Alike size (parser >>= next) (other >>= following) := by
  refine .bindTaking 0 (fun tokens item rest run => ?_) first second
  have leaves := (first tokens).leaves
  rw [run] at leaves
  exact leaves.length_le

theorem Alike.bounded {parser other : Nat → Parser Item}
    (alike : ∀ {small depth depth'}, small ≤ size → small ≤ depth → small ≤ depth' →
      Alike small (parser depth) (other depth')) : Alike size (bounded parser) (bounded other) := by
  refine fun tokens => ⟨(alike (Nat.zero_le _) (Nat.zero_le _) (Nat.le_refl 0) tokens).leaves, ?_⟩
  rintro read token rest rfl short left behind
  have enough (rest : List Token) : read.length + 1 ≤ (read ++ token :: rest).length := by simp
  exact (alike short (enough rest) (enough behind) _).alike rfl (Nat.lt_succ_self _) left behind

theorem Alike.peek {next following : Option Token → Parser Item}
    (alike : ∀ found, AlikeOn found size (next found) (following found)) :
    Alike size (peek >>= next) (peek >>= following) := by
  refine fun tokens => ⟨(alike _ rfl).leaves, ?_⟩
  rintro read token rest rfl short left behind
  have head : (read ++ token :: behind).head? = (read ++ token :: rest).head? := by cases read <;> rfl
  rw [peek_bind, head]
  exact (alike _ rfl).alike rfl short left behind

theorem Alike.peekLexeme {next following : Option Lexeme → Parser Item}
    (alike : ∀ found, Alike size (next found) (following found)) :
    Alike size (peekLexeme >>= next) (peekLexeme >>= following) :=
  .peek fun _ _ _ => alike _ _

theorem AlikeOn.of (alike : Alike size parser other) : AlikeOn found size parser other :=
  fun tokens _ => alike tokens

theorem AlikeOn.skip {next following : Unit → Parser Item} (alike : Alike (size - 1) (next ()) (following ())) :
    AlikeOn (some token) size (skip >>= next) (skip >>= following) := by
  intro tokens first
  obtain ⟨tail, rfl⟩ := List.head?_eq_some_iff.mp first
  refine ⟨(alike tail).leaves.trans (List.suffix_cons _ _), fun read last rest split short left behind => ?_⟩
  cases read with
  | nil =>
      -- A token that is skipped is not left unread.
      obtain ⟨-, rfl⟩ := List.cons.inj split
      have leaves : last :: tail <:+ tail := left ▸ (alike tail).leaves
      exact absurd leaves.length_le (by simp)
  | cons first read =>
      obtain ⟨-, rfl⟩ := List.cons.inj split
      exact (alike _).alike rfl (by simp at short; omega) left behind

section Combinators

theorem expect_alike (lexeme : Lexeme) : Alike size (expect lexeme) (expect lexeme) := by
  refine .peek fun found => ?_
  cases found with
  | none => exact .of .refuse
  | some token =>
      dsimp only
      split
      case isTrue => exact .skip (.pure _)
      case isFalse => exact .of .refuse

theorem expectName_alike : Alike size expectName expectName := by
  refine .peek fun found => ?_
  split
  case h_1 => exact .skip (.pure _)
  case h_2 => exact .of .refuse

theorem expectInteger_alike : Alike size expectInteger expectInteger := by
  refine .peek fun found => ?_
  split
  case h_1 => exact .skip (.pure _)
  case h_2 => exact .of .refuse

theorem Alike.expect {next following : Position → Parser Result}
    (alike : ∀ place, Alike size (next place) (following place)) :
    Alike size (expect lexeme >>= next) (expect lexeme >>= following) :=
  .bind (expect_alike lexeme) alike

theorem accept_bind (next : Option Position → Parser Result) :
    (accept lexeme >>= next) = (peek >>= fun found => match found with
      | some token => if token.lexeme = lexeme then skip >>= fun _ => next (some token.place) else next none
      | none => next none) := by
  unfold accept
  rw [bind_assoc]
  congr 1
  funext found
  cases found with
  | none => rfl
  | some token =>
      dsimp only
      split <;> rfl

/-- What follows a lexeme has one token less to read when it is there. -/
theorem Alike.accept {next following : Option Position → Parser Result}
    (absent : Alike size (next none) (following none))
    (present : ∀ place, Alike (size - 1) (next (some place)) (following (some place))) :
    Alike size (accept lexeme >>= next) (accept lexeme >>= following) := by
  rw [accept_bind, accept_bind]
  refine .peek fun found => ?_
  cases found with
  | none => exact .of absent
  | some token =>
      dsimp only
      split
      case isTrue => exact .skip (present _)
      case isFalse => exact .of absent

theorem after?_alike (alike : Alike size parser other) : Alike size (after? lexeme parser) (after? lexeme other) :=
  .accept (.pure _) fun _ => .bind (alike.mono (Nat.sub_le _ _)) fun _ => .pure _

theorem commaItems_alike (alike : Alike size parser other) {fuel fuel' : Nat} (short : small ≤ size)
    (enough : small ≤ fuel) (enough' : small ≤ fuel') :
    Alike small (commaItems parser fuel) (commaItems other fuel') := by
  refine alikeByDepth (motive := fun small fuel fuel' => small ≤ size →
    Alike small (commaItems parser fuel) (commaItems other fuel')) (fun another alike short => (alike short).unbound _)
    (fun _ => .pure _) (fun more short => ?_) enough enough' short
  exact .accept (.pure _) fun _ => .bind (alike.mono (by omega)) fun _ => .bind (more (by omega)) fun _ => .pure _

theorem separated_alike (alike : Alike size parser other) : Alike size (separated parser) (separated other) :=
  .bind alike fun _ => .bind (.bounded (commaItems_alike alike)) fun _ => .pure _

theorem listed_alike {close : Mark} (alike : Alike size parser other) :
    Alike size (listed parser close) (listed other close) :=
  .accept (.bind (separated_alike alike) fun _ => .expect fun _ => .pure _) fun _ => .pure _

/-- Each of the items takes a token. -/
theorem itemsUntil_alike (takes : ∀ ⦃tokens item rest⦄, parser tokens = .ok (item, rest) → rest.length < tokens.length)
    (alike : Alike size parser other) {fuel fuel' : Nat} (short : small ≤ size)
    (enough : small ≤ fuel) (enough' : small ≤ fuel') :
    Alike small (itemsUntil parser lexeme fuel) (itemsUntil other lexeme fuel') := by
  refine alikeByDepth (motive := fun small fuel fuel' => small ≤ size →
    Alike small (itemsUntil parser lexeme fuel) (itemsUntil other lexeme fuel'))
    (fun another alike short => (alike short).unbound _) (fun _ => .refuse) (fun more short => ?_) enough enough' short
  exact .accept (.bindTaking 1 takes (alike.mono short) fun _ => .bind (more (by omega)) fun _ => .pure _)
    fun _ => .pure _

end Combinators

end Parser

open LifecycleHooks.Surface.Parser

namespace Derivation

variable {size small depth depth' : Nat}

namespace TypeRef

theorem readWithin_alike (enough : size ≤ depth) (enough' : size ≤ depth') :
    Alike size (readWithin depth) (readWithin depth') := by
  refine alikeByDepth (motive := fun size depth depth' => Alike size (readWithin depth) (readWithin depth'))
    (fun another alike => alike.unbound _) .refuse (fun inner => .peek fun found => ?_) enough enough'
  split
  case h_1 =>
    exact .skip (.accept (.pure _) fun _ => .bind ((separated_alike inner).mono (Nat.sub_le _ _)) fun _ =>
      .expect fun _ => .pure _)
  case h_2 =>
    exact .skip (.expect fun _ => .bind expectInteger_alike fun _ => .expect fun _ => .bind inner fun _ =>
      .expect fun _ => .pure _)
  case h_3 => exact .skip (.expect fun _ => .bind inner fun _ => .expect fun _ => .pure _)
  case h_4 => exact .skip (.expect fun _ => .bind (separated_alike inner) fun _ => .expect fun _ => .pure _)
  case h_5 | h_6 | h_7 | h_8 => exact .skip (.bind inner fun _ => .pure _)
  case h_9 => exact .of .refuse

theorem read_alike : Alike size read read :=
  .bounded fun _ enough enough' => readWithin_alike (Nat.le_succ_of_le enough) (Nat.le_succ_of_le enough')

end TypeRef

theorem Member.read_alike : Alike size Member.read Member.read :=
  .bind expectName_alike fun _ => .expect fun _ => .bind TypeRef.read_alike fun _ => .pure _

theorem TypeParams.read?_alike : Alike size TypeParams.read? TypeParams.read? :=
  .accept (.pure _) fun _ => .bind (separated_alike expectName_alike) fun _ => .expect fun _ => .pure _

namespace TypeBody

theorem readFields_alike (enough : size ≤ depth) (enough' : size ≤ depth') :
    Alike size (readFields depth) (readFields depth') := by
  refine alikeByDepth (motive := fun size depth depth' => Alike size (readFields depth) (readFields depth'))
    (fun another alike => alike.unbound _) (.pure _) (fun more => ?_) enough enough'
  refine .accept (.pure _) fun _ => .peekLexeme fun found => ?_
  split
  case isTrue => exact .pure _
  case isFalse => exact .bind Member.read_alike fun _ => .bind more fun _ => .pure _

theorem readObject_alike (place : Position) (base : Option (Position × TypeRef)) (opening : Position) :
    Alike size (readObject place base opening) (readObject place base opening) := by
  refine .peekLexeme fun found => ?_
  split
  case h_1 | h_2 => exact .accept (.expect fun _ => .pure _) fun _ => .expect fun _ => .pure _
  case h_3 =>
    exact .bind Member.read_alike fun _ => .bind (.bounded fun _ => readFields_alike) fun _ => .expect fun _ => .pure _

theorem read_alike : Alike size read read := by
  refine .peek fun found => ?_
  split
  case h_1 =>
    exact .skip (.bind (after?_alike TypeRef.read_alike) fun _ => .expect fun _ => readObject_alike _ _ _)
  case h_2 => exact .skip (.bind TypeRef.read_alike fun _ => .pure _)
  case h_3 => exact .of .refuse

end TypeBody

theorem TypeDef.read_alike (place : Position) : Alike size (TypeDef.read place) (TypeDef.read place) :=
  .bind expectName_alike fun _ => .bind TypeParams.read?_alike fun _ => .expect fun _ =>
    .bind TypeBody.read_alike fun _ => .pure _

namespace Expr

theorem readFields_alike (subject : Expr) (enough : size ≤ depth) (enough' : size ≤ depth') :
    Alike size (readFields depth subject) (readFields depth' subject) := by
  refine alikeByDepth (motive := fun size depth depth' => ∀ subject,
      Alike size (readFields depth subject) (readFields depth' subject))
    (fun another alike subject => (alike subject).unbound _) (fun _ => .pure _) (fun more subject => ?_)
    enough enough' subject
  exact .accept (.pure _) fun _ => .bind expectName_alike fun _ => more _

theorem readPrimary_alike {inside inside' : Parser Expr} (alike : Alike (size - 1) inside inside') :
    Alike size (readPrimary inside) (readPrimary inside') := by
  refine .peek fun found => ?_
  split
  case h_1 =>
    exact .skip (.accept (.pure _) fun _ => .bind ((listed_alike alike).mono (Nat.sub_le _ _)) fun _ => .pure _)
  case h_2 | h_3 | h_4 => exact .skip (.pure _)
  case h_5 => exact .skip (.bind alike fun _ => .expect fun _ => .pure _)
  case h_6 => exact .of .refuse

theorem readWithin_alike (enough : size ≤ depth) (enough' : size ≤ depth') :
    Alike size (readWithin depth) (readWithin depth') := by
  refine alikeByDepth (motive := fun size depth depth' => Alike size (readWithin depth) (readWithin depth'))
    (fun another alike => alike.unbound _) .refuse (fun inner => ?_) enough enough'
  exact .bind (readPrimary_alike inner) fun subject => .bounded fun _ => readFields_alike subject

theorem read_alike : Alike size read read :=
  .bounded fun _ enough enough' => readWithin_alike (Nat.le_succ_of_le enough) (Nat.le_succ_of_le enough')

end Expr

theorem Stmt.tokens_ne_nil (statement : Stmt) : statement.tokens ≠ [] := by
  intro empty
  -- A statement without tokens would begin as what follows it.
  have stops := statement.stops_tokens [⟨.mark .rightBrace, .start⟩]
  simp [empty] at stops

theorem Block.readWith_alike {statement other : Parser Stmt} (sound : Sound statement Stmt.tokens)
    (alike : Alike (size - 1) statement other) : Alike size (Block.readWith statement) (Block.readWith other) := by
  have takes {tokens rest : List Token} {item : Stmt} (run : statement tokens = .ok (item, rest)) :
      rest.length < tokens.length := by
    have taken : tokens = item.tokens ++ rest := sound run
    have size := List.length_pos_iff.mpr item.tokens_ne_nil
    rw [taken, List.length_append]
    omega
  refine .bindTaking 1 (fun tokens _ _ run => ?_) (expect_alike _) fun _ => .bind (.bounded ?_) fun _ => .pure _
  · simp [expect_eq_ok.mp run]
  · exact fun short enough enough' => itemsUntil_alike (fun _ _ _ => takes) alike short
      (Nat.le_succ_of_le enough) (Nat.le_succ_of_le enough')

namespace Stmt

theorem readVar_alike (place : Position) : Alike size (readVar place) (readVar place) :=
  .bind expectName_alike fun _ => .bind (after?_alike TypeRef.read_alike) fun _ =>
    .bind (after?_alike Expr.read_alike) fun _ => .expect fun _ => .pure _

theorem readLet_alike (place : Position) : Alike size (readLet place) (readLet place) :=
  .bind expectName_alike fun _ => .bind (after?_alike TypeRef.read_alike) fun _ => .expect fun _ =>
    .bind Expr.read_alike fun _ => .expect fun _ => .pure _

theorem readReturn_alike (place : Position) : Alike size (readReturn place) (readReturn place) :=
  .accept (.bind Expr.read_alike fun _ => .expect fun _ => .pure _) fun _ => .pure _

theorem readPlain_alike : Alike size readPlain readPlain := by
  refine .bind Expr.read_alike fun _ => .bind (after?_alike Expr.read_alike) fun value? => ?_
  cases value? with
  | none => exact .expect fun _ => .pure _
  | some => exact .expect fun _ => .pure _

end Stmt

section Nesting

variable (statement : Alike (size - 1) (Stmt.readWithin depth) (Stmt.readWithin depth'))
  (branch : ∀ place, Alike (size - 1) (Branch.readWithin depth place) (Branch.readWithin depth' place))

include statement branch

theorem Stmt.readWithin_alike_succ : Alike size (Stmt.readWithin (depth + 1)) (Stmt.readWithin (depth' + 1)) := by
  have block : Alike (size - 1) (Block.readWith (Stmt.readWithin depth)) (Block.readWith (Stmt.readWithin depth')) :=
    (Block.readWith_alike (readWithin_sound depth).1 statement).mono (Nat.sub_le _ _)
  unfold Stmt.readWithin
  refine .peek fun found => ?_
  split
  case h_1 => exact .skip (readVar_alike _)
  case h_2 => exact .skip (readLet_alike _)
  case h_3 => exact .skip (readReturn_alike _)
  case h_4 => exact .skip (.bind (branch _) fun _ => .pure _)
  case h_5 =>
    exact .skip (.bind Expr.read_alike fun _ => .bind block fun _ => .pure _)
  case h_6 | h_7 => exact .skip (.expect fun _ => .pure _)
  case h_8 => exact .skip (.bind block fun _ => .pure _)
  case h_9 => exact .skip (.bind Expr.read_alike fun _ => .expect fun _ => .pure _)
  case h_10 => exact .of readPlain_alike

theorem Branch.readWithin_alike_succ (place : Position) :
    Alike size (Branch.readWithin (depth + 1) place) (Branch.readWithin (depth' + 1) place) := by
  have block : Alike size (Block.readWith (Stmt.readWithin depth)) (Block.readWith (Stmt.readWithin depth')) :=
    Block.readWith_alike (readWithin_sound depth).1 statement
  unfold Branch.readWithin
  refine .bind Expr.read_alike fun _ => .bind block fun _ => .accept (.pure _) fun _ => .accept ?_ fun inner => ?_
  · exact .bind (block.mono (Nat.sub_le _ _)) fun _ => .pure _
  · exact .bind ((branch inner).mono (Nat.sub_le _ _)) fun _ => .pure _

end Nesting

theorem readWithin_alike (enough : size ≤ depth) (enough' : size ≤ depth') :
    Alike size (Stmt.readWithin depth) (Stmt.readWithin depth') ∧
      ∀ place, Alike size (Branch.readWithin depth place) (Branch.readWithin depth' place) :=
  alikeByDepth (motive := fun size depth depth' => Alike size (Stmt.readWithin depth) (Stmt.readWithin depth') ∧
      ∀ place, Alike size (Branch.readWithin depth place) (Branch.readWithin depth' place))
    (fun _ alike => ⟨alike.1.unbound _, fun place => (alike.2 place).unbound _⟩) ⟨.refuse, fun _ => .refuse⟩
    (fun inner => ⟨Stmt.readWithin_alike_succ inner.1 inner.2, Branch.readWithin_alike_succ inner.1 inner.2⟩)
    enough enough'

theorem Stmt.read_alike : Alike size Stmt.read Stmt.read :=
  .bounded fun _ enough enough' => (readWithin_alike (Nat.le_succ_of_le enough) (Nat.le_succ_of_le enough')).1

theorem ProcName.read_alike : Alike size ProcName.read ProcName.read := by
  refine .peek fun found => ?_
  split
  case h_1 | h_2 => exact .skip (.pure _)
  case h_3 => exact .of .refuse

theorem ProcDef.read_alike (place : Position) : Alike size (ProcDef.read place) (ProcDef.read place) :=
  .bind ProcName.read_alike fun _ => .bind TypeParams.read?_alike fun _ => .expect fun _ =>
    .bind (listed_alike Member.read_alike) fun _ => .bind (after?_alike TypeRef.read_alike) fun _ =>
      .bind (Block.readWith_alike Stmt.read_sound Stmt.read_alike) fun _ => .pure _

theorem Item.readAll_alike (enough : size ≤ depth) (enough' : size ≤ depth') :
    Alike size (readAll depth) (readAll depth') := by
  refine alikeByDepth (motive := fun size depth depth' => Alike size (readAll depth) (readAll depth'))
    (fun another alike => alike.unbound _) .refuse (fun more => .peek fun found => ?_) enough enough'
  split
  case h_1 => exact .of (.pure _)
  case h_2 => exact .skip (.bind (TypeDef.read_alike _) fun _ => .bind more fun _ => .pure _)
  case h_3 => exact .skip (.bind (ProcDef.read_alike _) fun _ => .bind more fun _ => .pure _)
  case h_4 => exact .of .refuse

theorem Program.read_alike : Alike size Program.read Program.read :=
  .bind (.bounded fun _ enough enough' => Item.readAll_alike (Nat.le_succ_of_le enough) (Nat.le_succ_of_le enough'))
    fun _ => .pure _

/-- A token is refused whatever tokens are behind it. -/
theorem Program.read_refuses {taken rest : List Token} {token : Token}
    (run : Program.read (taken ++ token :: rest) = .error (token :: rest)) (behind : List Token) :
    Program.read (taken ++ token :: behind) = .error (token :: behind) := by
  have same := (read_alike _).alike rfl (Nat.lt_succ_self taken.length) (by rw [run]; rfl) behind
  rwa [run] at same

/-- A program is refused at the first token that no program goes on with.  What is read before is
the beginning of a program, and with the token it is not. -/
theorem Program.read_error {tokens unread : List Token} (run : Program.read tokens = .error unread) :
    ∃ taken, tokens = taken ++ unread ∧ Program.Viable taken ∧
      ∀ token ∈ unread.head?, ¬ Program.Viable (taken ++ [token]) := by
  obtain ⟨taken, rfl, viable⟩ := Program.read_viable run
  refine ⟨taken, rfl, viable, fun token first => ?_⟩
  obtain ⟨rest, rfl⟩ := List.head?_eq_some_iff.mp first
  rintro ⟨program, behind, whole⟩
  have refused := Program.read_refuses run behind
  rw [show taken ++ token :: behind = program.tokens by simpa using whole, Program.read_eq_ok.mpr ⟨rfl, rfl⟩] at refused
  cases refused

end Derivation
end LifecycleHooks.Surface

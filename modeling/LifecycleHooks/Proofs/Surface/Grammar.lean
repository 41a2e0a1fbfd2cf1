import LifecycleHooks.Surface.Derivation

/-!
# The tokens of a derivation

A derivation writes the words and the marks of its alternative in the order in which the rule of
the grammar names them.  A text is derivable when its tokens are those of a derivation.
-/

namespace LifecycleHooks.Surface

/-- The token that writes a name. -/
def Word.name (word : Word) : Token := ⟨.name word.text, word.place⟩

/-- The token that writes a number. -/
def Word.integer (word : Word) : Token := ⟨.integer word.text, word.place⟩

/-- The token that writes a hook name. -/
def Word.hookName (word : Word) : Token := ⟨.hookName word.text, word.place⟩

section Lists

variable {Item : Type} (written : Item → List Token)

/-- The tokens of items, each behind its comma. -/
def commaTokens : List (Position × Item) → List Token
  | [] => []
  | (comma, next) :: rest => ⟨.mark .comma, comma⟩ :: (written next ++ commaTokens rest)

/-- The tokens of one or more items with commas between them. -/
def Separated.tokens (list : Separated Item) : List Token :=
  written list.first ++ commaTokens written list.rest

/-- The tokens of something that may be left out. -/
def optionTokens : Option Item → List Token
  | none => []
  | some item => written item

@[simp]
theorem optionTokens_none : optionTokens written none = [] := rfl

@[simp]
theorem optionTokens_some (item : Item) : optionTokens written (some item) = written item := rfl

/-- The tokens of something that stands behind a token of its own. -/
def behindTokens (lexeme : Lexeme) (item : Position × Item) : List Token :=
  ⟨lexeme, item.1⟩ :: written item.2

/-- The tokens of items with commas between them, and of the mark behind them. -/
def listedTokens (close : Mark) (answer : Option (Separated Item) × Position) : List Token :=
  optionTokens (Separated.tokens written) answer.1 ++ [⟨.mark close, answer.2⟩]

/-- The tokens of items and of the lexeme behind them. -/
def untilTokens (close : Lexeme) (answer : List Item × Position) : List Token :=
  answer.1.flatMap written ++ [⟨close, answer.2⟩]

theorem length_le_commaTokens (items : List (Position × Item)) : items.length ≤ (commaTokens written items).length := by
  induction items with
  | nil => simp
  | cons entry others ih =>
      simp only [commaTokens, List.length_cons, List.length_append]
      omega

variable {written}

theorem length_written_le_commaTokens {items : List (Position × Item)} {entry : Position × Item}
    (member : entry ∈ items) : (written entry.2).length ≤ (commaTokens written items).length := by
  induction items with
  | nil => simp at member
  | cons first others ih =>
      simp only [commaTokens, List.length_cons, List.length_append]
      obtain rfl | member := List.mem_cons.mp member
      · omega
      · have := ih member
        omega

theorem Separated.length_written_le {list : Separated Item} {item : Item} (member : item ∈ list.items) :
    (written item).length ≤ (list.tokens written).length := by
  simp only [Separated.tokens, List.length_append]
  obtain rfl | member := List.mem_cons.mp member
  · omega
  · obtain ⟨entry, found, rfl⟩ := List.mem_map.mp member
    have : (written entry.2).length ≤ _ := length_written_le_commaTokens found
    omega

theorem length_written_lt_listedTokens {answer : Option (Separated Item) × Position} {close : Mark} {item : Item}
    (member : item ∈ itemsOf answer.1) : (written item).length < (listedTokens written close answer).length := by
  obtain ⟨list?, closing⟩ := answer
  cases list? with
  | none => simp [itemsOf] at member
  | some list =>
      have : (written item).length ≤ (list.tokens written).length := Separated.length_written_le member
      simp only [listedTokens, optionTokens_some, List.length_append, List.length_singleton]
      omega

theorem length_written_lt_untilTokens {answer : List Item × Position} {close : Lexeme} {item : Item}
    (member : item ∈ answer.1) : (written item).length < (untilTokens written close answer).length := by
  have : (written item).length ≤ (answer.1.flatMap written).length := by
    obtain ⟨before, after, split⟩ := List.append_of_mem member
    simp only [split, List.flatMap_append, List.flatMap_cons, List.length_append]
    omega
  simp only [untilTokens, List.length_append, List.length_singleton]
  omega

end Lists

namespace Derivation

mutual

/-- The tokens of a spelled type. -/
def TypeRef.tokens : TypeRef → List Token
  | .named name => [name.name]
  | .generic name opening ⟨first, rest⟩ closing =>
      name.name :: ⟨.mark .leftBracket, opening⟩ ::
        (first.tokens ++ TypeRef.tokensOf rest ++ [⟨.mark .rightBracket, closing⟩])
  | .array place opening length comma element closing =>
      ⟨.keyword .array, place⟩ :: ⟨.mark .leftBracket, opening⟩ :: length.integer :: ⟨.mark .comma, comma⟩ ::
        (element.tokens ++ [⟨.mark .rightBracket, closing⟩])
  | .seq place opening element closing =>
      ⟨.keyword .seq, place⟩ :: ⟨.mark .leftBracket, opening⟩ ::
        (element.tokens ++ [⟨.mark .rightBracket, closing⟩])
  | .tuple place opening ⟨first, rest⟩ closing =>
      ⟨.keyword .tuple, place⟩ :: ⟨.mark .leftBracket, opening⟩ ::
        (first.tokens ++ TypeRef.tokensOf rest ++ [⟨.mark .rightBracket, closing⟩])
  | .ref place inner => ⟨.keyword .ref, place⟩ :: inner.tokens
  | .ptr place inner => ⟨.keyword .ptr, place⟩ :: inner.tokens
  | .var place inner => ⟨.keyword .var, place⟩ :: inner.tokens
  | .lent place inner => ⟨.keyword .lent, place⟩ :: inner.tokens

/-- The tokens of spelled types, each behind its comma. -/
def TypeRef.tokensOf : List (Position × TypeRef) → List Token
  | [] => []
  | (comma, next) :: rest => ⟨.mark .comma, comma⟩ :: (next.tokens ++ TypeRef.tokensOf rest)

end

@[simp]
theorem TypeRef.tokensOf_eq (rest : List (Position × TypeRef)) :
    TypeRef.tokensOf rest = commaTokens TypeRef.tokens rest := by
  induction rest with
  | nil => rfl
  | cons entry rest ih => rw [TypeRef.tokensOf, commaTokens, ih]

theorem TypeRef.tokens_generic (name : Word) (opening : Position) (args : Separated TypeRef) (closing : Position) :
    (TypeRef.generic name opening args closing).tokens =
      name.name :: ⟨.mark .leftBracket, opening⟩ ::
        (args.tokens TypeRef.tokens ++ [⟨.mark .rightBracket, closing⟩]) := by
  simp [TypeRef.tokens, Separated.tokens]

theorem TypeRef.tokens_tuple (place opening : Position) (elements : Separated TypeRef) (closing : Position) :
    (TypeRef.tuple place opening elements closing).tokens =
      ⟨.keyword .tuple, place⟩ :: ⟨.mark .leftBracket, opening⟩ ::
        (elements.tokens TypeRef.tokens ++ [⟨.mark .rightBracket, closing⟩]) := by
  simp [TypeRef.tokens, Separated.tokens]

/-- The tokens of a field or a parameter. -/
def Member.tokens (member : Member) : List Token :=
  member.name.name :: ⟨.mark .colon, member.colon⟩ :: member.type.tokens

/-- The tokens of type parameters. -/
def TypeParams.tokens (params : TypeParams) : List Token :=
  ⟨.mark .leftBracket, params.opening⟩ ::
    (params.names.tokens (fun name => [name.name]) ++ [⟨.mark .rightBracket, params.closing⟩])

/-- The tokens of what a type is declared to be. -/
def TypeBody.tokens : TypeBody → List Token
  | .object place base opening fields comma closing =>
      ⟨.keyword .object, place⟩ :: (optionTokens (behindTokens TypeRef.tokens (.keyword .of)) base ++
        ⟨.mark .leftBrace, opening⟩ :: (optionTokens (Separated.tokens Member.tokens) fields ++
          optionTokens (fun place => [⟨.mark .comma, place⟩]) comma ++ [⟨.mark .rightBrace, closing⟩]))
  | .distinct place underlying => ⟨.keyword .distinct, place⟩ :: underlying.tokens

/-- The tokens of a type declaration. -/
def TypeDef.tokens (decl : TypeDef) : List Token :=
  ⟨.keyword .type, decl.place⟩ :: decl.name.name :: (optionTokens TypeParams.tokens decl.params ++
    ⟨.mark .equal, decl.equal⟩ :: decl.body.tokens)

mutual

/-- The tokens of an expression. -/
def Expr.tokens : Expr → List Token
  | .call callee opening none closing =>
      [callee.name, ⟨.mark .leftParen, opening⟩, ⟨.mark .rightParen, closing⟩]
  | .call callee opening (some ⟨first, rest⟩) closing =>
      callee.name :: ⟨.mark .leftParen, opening⟩ ::
        (first.tokens ++ Expr.tokensOf rest ++ [⟨.mark .rightParen, closing⟩])
  | .name word => [word.name]
  | .integer digits => [digits.integer]
  | .true place => [⟨.keyword .true, place⟩]
  | .false place => [⟨.keyword .false, place⟩]
  | .paren opening inner closing =>
      ⟨.mark .leftParen, opening⟩ :: (inner.tokens ++ [⟨.mark .rightParen, closing⟩])
  | .field subject dot member => subject.tokens ++ [⟨.mark .dot, dot⟩, member.name]

/-- The tokens of expressions, each behind its comma. -/
def Expr.tokensOf : List (Position × Expr) → List Token
  | [] => []
  | (comma, next) :: rest => ⟨.mark .comma, comma⟩ :: (next.tokens ++ Expr.tokensOf rest)

end

@[simp]
theorem Expr.tokensOf_eq (rest : List (Position × Expr)) :
    Expr.tokensOf rest = commaTokens Expr.tokens rest := by
  induction rest with
  | nil => rfl
  | cons entry rest ih => rw [Expr.tokensOf, commaTokens, ih]

theorem Expr.tokens_call (callee : Word) (opening : Position) (args : Option (Separated Expr)) (closing : Position) :
    (Expr.call callee opening args closing).tokens =
      callee.name :: ⟨.mark .leftParen, opening⟩ :: listedTokens Expr.tokens .rightParen (args, closing) := by
  cases args <;> simp [Expr.tokens, Separated.tokens, listedTokens]

mutual

/-- The tokens of a statement. -/
def Stmt.tokens : Stmt → List Token
  | .var place name type value semicolon =>
      ⟨.keyword .var, place⟩ :: name.name :: (optionTokens (behindTokens TypeRef.tokens (.mark .colon)) type ++
        optionTokens (behindTokens Expr.tokens (.mark .equal)) value ++ [⟨.mark .semicolon, semicolon⟩])
  | .let place name type equal value semicolon =>
      ⟨.keyword .let, place⟩ :: name.name :: (optionTokens (behindTokens TypeRef.tokens (.mark .colon)) type ++
        ⟨.mark .equal, equal⟩ :: (value.tokens ++ [⟨.mark .semicolon, semicolon⟩]))
  | .assign target equal value semicolon =>
      target.tokens ++ ⟨.mark .equal, equal⟩ :: (value.tokens ++ [⟨.mark .semicolon, semicolon⟩])
  | .expr expr semicolon => expr.tokens ++ [⟨.mark .semicolon, semicolon⟩]
  | .return place value semicolon =>
      ⟨.keyword .return, place⟩ :: (optionTokens Expr.tokens value ++ [⟨.mark .semicolon, semicolon⟩])
  | .branch branch => branch.tokens
  | .while place condition body => ⟨.keyword .while, place⟩ :: (condition.tokens ++ body.tokens)
  | .break place semicolon => [⟨.keyword .break, place⟩, ⟨.mark .semicolon, semicolon⟩]
  | .continue place semicolon => [⟨.keyword .continue, place⟩, ⟨.mark .semicolon, semicolon⟩]
  | .block place block => ⟨.keyword .block, place⟩ :: block.tokens
  | .spawn place operand semicolon =>
      ⟨.keyword .spawn, place⟩ :: (operand.tokens ++ [⟨.mark .semicolon, semicolon⟩])

/-- The tokens of a branch. -/
def Branch.tokens : Branch → List Token
  | .mk place condition yes none => ⟨.keyword .if, place⟩ :: (condition.tokens ++ yes.tokens)
  | .mk place condition yes (some no) => ⟨.keyword .if, place⟩ :: (condition.tokens ++ (yes.tokens ++ no.tokens))

/-- The tokens of an alternative. -/
def Alternative.tokens : Alternative → List Token
  | .block place block => ⟨.keyword .else, place⟩ :: block.tokens
  | .branch place branch => ⟨.keyword .else, place⟩ :: branch.tokens

/-- The tokens of a block. -/
def Block.tokens : Block → List Token
  | .mk opening statements closing =>
      ⟨.mark .leftBrace, opening⟩ :: (Stmt.tokensOf statements ++ [⟨.mark .rightBrace, closing⟩])

/-- The tokens of statements, in order. -/
def Stmt.tokensOf : List Stmt → List Token
  | [] => []
  | first :: rest => first.tokens ++ Stmt.tokensOf rest

end

@[simp]
theorem Stmt.tokensOf_eq (statements : List Stmt) : Stmt.tokensOf statements = statements.flatMap Stmt.tokens := by
  induction statements with
  | nil => rfl
  | cons first rest ih => rw [Stmt.tokensOf, List.flatMap_cons, ih]

theorem Block.tokens_mk (opening : Position) (statements : List Stmt) (closing : Position) :
    (Block.mk opening statements closing).tokens =
      ⟨.mark .leftBrace, opening⟩ :: untilTokens Stmt.tokens (.mark .rightBrace) (statements, closing) := by
  simp [Block.tokens, untilTokens]

theorem Branch.tokens_mk (place : Position) (condition : Expr) (yes : Block) (no : Option Alternative) :
    (Branch.mk place condition yes no).tokens =
      ⟨.keyword .if, place⟩ :: (condition.tokens ++ (yes.tokens ++ optionTokens Alternative.tokens no)) := by
  cases no <;> simp [Branch.tokens]

/-- The token of the name of a procedure. -/
def ProcName.token : ProcName → Token
  | .plain word => word.name
  | .hook word => word.hookName

/-- The tokens of a procedure. -/
def ProcDef.tokens (decl : ProcDef) : List Token :=
  ⟨.keyword .proc, decl.place⟩ :: decl.name.token :: (optionTokens TypeParams.tokens decl.typeParams ++
    ⟨.mark .leftParen, decl.opening⟩ :: (optionTokens (Separated.tokens Member.tokens) decl.params ++
      ⟨.mark .rightParen, decl.closing⟩ :: (optionTokens (behindTokens TypeRef.tokens (.mark .colon)) decl.result ++
        decl.body.tokens)))

/-- The tokens of a declaration. -/
def Item.tokens : Item → List Token
  | .type decl => decl.tokens
  | .proc decl => decl.tokens

/-- The tokens of a program. -/
def Program.tokens (program : Program) : List Token := program.items.flatMap Item.tokens

end Derivation
end LifecycleHooks.Surface

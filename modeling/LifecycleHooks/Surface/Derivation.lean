import LifecycleHooks.Surface.Token
import LifecycleHooks.Surface.Tree

/-!
# Derivations

A derivation says how the grammar of the language makes a list of tokens.  Each rule of
the grammar has a type of derivations with a constructor for each of its alternatives,
which holds the words that it writes and the places of its keywords and marks.  The tree
of a derivation keeps what the tokens say and forgets how they are spelled: parentheses,
separators and the word between a branch and its alternative leave nothing behind.
-/

namespace LifecycleHooks.Surface

/-- The text of a name, a number or a hook name, and the place where it is written. -/
structure Word where
  text : String
  place : Position
deriving DecidableEq, Repr

/-- One or more items with commas between them.  Each but the first one stands behind
the place of its comma. -/
structure Separated (Item : Type) where
  first : Item
  rest : List (Position × Item)
deriving Repr

/-- All items, without their commas. -/
def Separated.items {Item : Type} (list : Separated Item) : List Item :=
  list.first :: list.rest.map Prod.snd

/-- The items of a list that may be empty. -/
def itemsOf {Item : Type} (list : Option (Separated Item)) : List Item :=
  (list.map Separated.items).getD []

/-- The number that a run of decimal digits writes. -/
def numeral (digits : String) : Nat :=
  digits.toList.foldl (fun value digit => 10 * value + (digit.toNat - 48)) 0

namespace Derivation

/-- `NAME`, `NAME "[" type_ref ("," type_ref)* "]"`, `"array" "[" INT "," type_ref "]"`,
`"seq" "[" type_ref "]"`, `"tuple" "[" type_ref ("," type_ref)* "]"`, `"ref" type_ref`,
`"ptr" type_ref`, `"var" type_ref` or `"lent" type_ref`. -/
inductive TypeRef where
  | named (name : Word)
  | generic (name : Word) (opening : Position) (args : Separated TypeRef) (closing : Position)
  | array (place opening : Position) (length : Word) (comma : Position) (element : TypeRef)
      (closing : Position)
  | seq (place opening : Position) (element : TypeRef) (closing : Position)
  | tuple (place opening : Position) (elements : Separated TypeRef) (closing : Position)
  | ref (place : Position) (inner : TypeRef)
  | ptr (place : Position) (inner : TypeRef)
  | var (place : Position) (inner : TypeRef)
  | lent (place : Position) (inner : TypeRef)
deriving Repr

mutual

/-- The type that is spelled. -/
def TypeRef.tree : TypeRef → TypeExpr
  | .named name => .named name.place name.text []
  | .generic name _ ⟨first, rest⟩ _ => .named name.place name.text (first.tree :: TypeRef.treesOf rest)
  | .array place _ length _ element _ => .array place (numeral length.text) element.tree
  | .seq place _ element _ => .wrap place .seq element.tree
  | .tuple place _ ⟨first, rest⟩ _ => .tuple place (first.tree :: TypeRef.treesOf rest)
  | .ref place inner => .wrap place .ref inner.tree
  | .ptr place inner => .wrap place .ptr inner.tree
  | .var place inner => .wrap place .var inner.tree
  | .lent place inner => .wrap place .lent inner.tree

/-- The types that are spelled behind commas. -/
def TypeRef.treesOf : List (Position × TypeRef) → List TypeExpr
  | [] => []
  | (_, next) :: rest => next.tree :: TypeRef.treesOf rest

end

/-- `NAME ":" type_ref`, which is a field or a parameter. -/
structure Member where
  name : Word
  colon : Position
  type : TypeRef
deriving Repr

/-- The member that is declared. -/
def Member.tree (member : Member) : Surface.Member :=
  ⟨member.name.place, member.name.text, member.type.tree⟩

/-- `"[" NAME ("," NAME)* "]"`. -/
structure TypeParams where
  opening : Position
  names : Separated Word
  closing : Position
deriving Repr

/-- The names of type parameters, if there are any. -/
def TypeParams.namesOf (params : Option TypeParams) : List String :=
  (params.map fun params => params.names.items.map Word.text).getD []

/-- `"object" ("of" type_ref)? "{" [member ("," member)*] ","? "}"` or `"distinct" type_ref`. -/
inductive TypeBody where
  | object (place : Position) (base : Option (Position × TypeRef)) (opening : Position)
      (fields : Option (Separated Member)) (comma : Option Position) (closing : Position)
  | distinct (place : Position) (underlying : TypeRef)
deriving Repr

/-- `"type" NAME type_params? "=" type_body`. -/
structure TypeDef where
  place : Position
  name : Word
  params : Option TypeParams
  equal : Position
  body : TypeBody
deriving Repr

/-- The type that is declared. -/
def TypeDef.tree (decl : TypeDef) : TypeDecl :=
  match decl.body with
  | .object _ base _ fields _ _ => .object
      { place := decl.place
        name := decl.name.text
        typeParams := TypeParams.namesOf decl.params
        base := base.map fun (_, type) => type.tree
        fields := (itemsOf fields).map Member.tree }
  | .distinct _ underlying => .distinct ⟨decl.place, decl.name.text, underlying.tree⟩

/-- `NAME "(" [expr ("," expr)*] ")"`, `NAME`, `INT`, `"true"`, `"false"`, `"(" expr ")"` or
`postfix "." NAME`. -/
inductive Expr where
  | call (callee : Word) (opening : Position) (args : Option (Separated Expr)) (closing : Position)
  | name (word : Word)
  | integer (digits : Word)
  | true (place : Position)
  | false (place : Position)
  | paren (opening : Position) (inner : Expr) (closing : Position)
  | field (subject : Expr) (dot : Position) (member : Word)
deriving Repr

/-- The place of the first token of an expression. -/
def Expr.start : Expr → Position
  | .call callee .. => callee.place
  | .name word => word.place
  | .integer digits => digits.place
  | .true place | .false place => place
  | .paren opening .. => opening
  | .field subject .. => subject.start

mutual

/-- The expression without its parentheses. -/
def Expr.tree : Expr → Surface.Expr
  | .call callee _ none _ => .call callee.place callee.text []
  | .call callee _ (some ⟨first, rest⟩) _ =>
      .call callee.place callee.text (first.tree :: Expr.treesOf rest)
  | .name word => .name word.place word.text
  | .integer digits => .integer digits.place (numeral digits.text)
  | .true place => .boolean place Bool.true
  | .false place => .boolean place Bool.false
  | .paren _ inner _ => inner.tree
  | .field subject _ member => .field subject.start subject.tree member.text

/-- The expressions behind commas. -/
def Expr.treesOf : List (Position × Expr) → List Surface.Expr
  | [] => []
  | (_, next) :: rest => next.tree :: Expr.treesOf rest

end

mutual

/-- `"var" NAME (":" type_ref)? ("=" expr)? ";"`, `"let" NAME (":" type_ref)? "=" expr ";"`,
`expr "=" expr ";"`, `expr ";"`, `"return" expr? ";"`, a branch, `"while" expr block`,
`"break" ";"`, `"continue" ";"`, `"block" block` or `"spawn" expr ";"`. -/
inductive Stmt where
  | var (place : Position) (name : Word) (type : Option (Position × TypeRef))
      (value : Option (Position × Expr)) (semicolon : Position)
  | let (place : Position) (name : Word) (type : Option (Position × TypeRef)) (equal : Position)
      (value : Expr) (semicolon : Position)
  | assign (target : Expr) (equal : Position) (value : Expr) (semicolon : Position)
  | expr (expr : Expr) (semicolon : Position)
  | return (place : Position) (value : Option Expr) (semicolon : Position)
  | branch (branch : Branch)
  | while (place : Position) (condition : Expr) (body : Block)
  | break (place semicolon : Position)
  | continue (place semicolon : Position)
  | block (place : Position) (block : Block)
  | spawn (place : Position) (operand : Expr) (semicolon : Position)
deriving Repr

/-- `"if" expr block alternative?`. -/
inductive Branch where
  | mk (place : Position) (condition : Expr) (yes : Block) (no : Option Alternative)
deriving Repr

/-- `"else" block` or `"else" branch`. -/
inductive Alternative where
  | block (place : Position) (block : Block)
  | branch (place : Position) (branch : Branch)
deriving Repr

/-- `"{" stmt* "}"`. -/
inductive Block where
  | mk (opening : Position) (statements : List Stmt) (closing : Position)
deriving Repr

end

mutual

/-- The statement that is written. -/
def Stmt.tree : Stmt → Surface.Stmt
  | .var place name type value _ => .declare place name.text (type.map fun (_, type) => type.tree)
      (value.map fun (_, value) => value.tree) Bool.true
  | .let place name type _ value _ => .declare place name.text (type.map fun (_, type) => type.tree)
      (some value.tree) Bool.false
  | .assign target _ value _ => .assign target.start target.tree value.tree
  | .expr expr _ => .expr expr.start expr.tree
  | .return place value _ => .return place (value.map Expr.tree)
  | .branch branch => branch.tree
  | .while place condition body => .loop place condition.tree body.tree
  | .break place _ => .break place
  | .continue place _ => .continue place
  | .block place block => .block place block.tree
  | .spawn place operand _ => .spawn place operand.tree

/-- The branch that is written. -/
def Branch.tree : Branch → Surface.Stmt
  | .mk place condition yes none => .branch place condition.tree yes.tree none
  | .mk place condition yes (some no) => .branch place condition.tree yes.tree (some no.tree)

/-- The block that is taken otherwise.  A branch stands for a block that holds just that
branch. -/
def Alternative.tree : Alternative → Surface.Block
  | .block _ block => block.tree
  | .branch _ branch => .mk branch.tree.place [branch.tree]

/-- The block that is written. -/
def Block.tree : Block → Surface.Block
  | .mk opening statements _ => .mk opening (Stmt.treesOf statements)

/-- The statements that are written, in order. -/
def Stmt.treesOf : List Stmt → List Surface.Stmt
  | [] => []
  | first :: rest => first.tree :: Stmt.treesOf rest

end

/-- `NAME` or `HOOK_NAME`. -/
inductive ProcName where
  | plain (word : Word)
  | hook (word : Word)
deriving Repr

/-- `"proc" proc_name type_params? "(" [member ("," member)*] ")" (":" type_ref)? block`. -/
structure ProcDef where
  place : Position
  name : ProcName
  typeParams : Option TypeParams
  opening : Position
  params : Option (Separated Member)
  closing : Position
  result : Option (Position × TypeRef)
  body : Block
deriving Repr

/-- The text of the name of a procedure. -/
def ProcName.text : ProcName → String
  | .plain word | .hook word => word.text

/-- Whether the name of a procedure is that of a hook. -/
def ProcName.isHook : ProcName → Bool
  | .plain _ => Bool.false
  | .hook _ => Bool.true

/-- The procedure that is declared. -/
def ProcDef.tree (decl : ProcDef) : ProcDecl where
  place := decl.place
  name := decl.name.text
  isHook := decl.name.isHook
  typeParams := TypeParams.namesOf decl.typeParams
  params := (itemsOf decl.params).map Member.tree
  result := decl.result.map fun (_, type) => type.tree
  body := decl.body.tree

/-- `type_def` or `proc_def`. -/
inductive Item where
  | type (decl : TypeDef)
  | proc (decl : ProcDef)
deriving Repr

/-- `item*`. -/
structure Program where
  items : List Item
deriving Repr

/-- The program: its types and its procedures, each in the order written. -/
def Program.tree (program : Program) : Surface.Program where
  types := program.items.filterMap fun
    | .type decl => some decl.tree
    | .proc _ => none
  procs := program.items.filterMap fun
    | .type _ => none
    | .proc decl => some decl.tree

end Derivation
end LifecycleHooks.Surface

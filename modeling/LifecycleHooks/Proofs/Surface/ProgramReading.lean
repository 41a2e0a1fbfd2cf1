import LifecycleHooks.Proofs.Surface.StmtReading

/-!
# Reading programs

A program is read from all its tokens or from none: the reader answers with the one derivation of
the tokens it is given, if there is one.
-/

namespace LifecycleHooks.Surface.Derivation

open LifecycleHooks.Surface.Parser

theorem ProcName.read_sound : Sound ProcName.read (fun name => [name.token]) := by
  refine .peek fun found => ?_
  split
  case h_1 text place => exact .skip (.pure rfl)
  case h_2 text place => exact .skip (.pure rfl)
  case h_3 => exact .of .refuse

theorem ProcName.read_bind {Result : Type} (name : ProcName) (next : ProcName → Parser Result) (rest : List Token) :
    (ProcName.read >>= next) (name.token :: rest) = next name rest := by
  cases name <;> exact bind_of_ok rfl

theorem ProcDef.read_sound (place : Position) :
    SoundAfter [⟨.keyword .proc, place⟩] (ProcDef.read place) ProcDef.tokens :=
  .bind ProcName.read_sound fun name => .bind TypeParams.read?_sound fun typeParams =>
    .bind (expect_sound _) fun opening => .bind (listed_sound Member.read_sound) fun answer =>
      .bind (after?_sound TypeRef.read_sound) fun result => .bind (Block.readWith_sound Stmt.read_sound) fun body =>
        .pure (by simp [ProcDef.tokens, listedTokens])

theorem ProcDef.read_reads (decl : ProcDef) :
    Reads (ProcDef.read decl.place) (fun decl => decl.tokens.tail) [] decl := by
  obtain ⟨place, name, typeParams, opening, params, closing, result, body⟩ := decl
  intro rest follows
  have generic := TypeParams.read?_reads typeParams
  have members : Reads (listed Member.read .rightParen) _ [] (params, closing) :=
    listed_reads (by simp) (by simp) (fun list _ rest => by simp [Member.tokens, Word.name])
      fun member _ => Member.read_reads member
  have returned := after?_reads (.mark .colon) fun entry (_ : entry ∈ result) => TypeRef.read_reads entry.2
  -- A body is no result type, nor does it go on with one.
  have begins : Stops [.mark .colon, .mark .leftBracket] (body.tokens ++ rest) := body.stops_tokens (by simp) rest
  have block := Block.read_reads body
  have split : (ProcDef.mk place name typeParams opening params closing result body).tokens.tail ++ rest =
      name.token :: (optionTokens TypeParams.tokens typeParams ++ ⟨.mark .leftParen, opening⟩ ::
        (listedTokens Member.tokens .rightParen (params, closing) ++
          (optionTokens (behindTokens TypeRef.tokens (.mark .colon)) result ++ (body.tokens ++ rest)))) := by
    simp [ProcDef.tokens, listedTokens]
  unfold ProcDef.read
  rw [split]
  simp [ProcName.read_bind, generic.bind, members.bind, returned.bind _ begins, block.map]

namespace Item

theorem readAll_sound (fuel : Nat) : Sound (readAll fuel) (List.flatMap tokens) := by
  induction fuel with
  | zero => exact .refuse
  | succ fuel ih =>
      refine .peek fun found => ?_
      split
      case h_1 => exact .of (.pure rfl)
      case h_2 place =>
        exact .skip (.bindFrom rfl (TypeDef.read_sound place) fun decl => .bind ih fun items =>
          .pure (by simp [tokens]))
      case h_3 place =>
        exact .skip (.bindFrom rfl (ProcDef.read_sound place) fun decl => .bind ih fun items =>
          .pure (by simp [tokens]))
      case h_4 => exact .of .refuse

theorem readAll_ends {fuel : Nat} {tokens rest : List Token} {items : List Item}
    (run : readAll fuel tokens = .ok (items, rest)) : rest = [] := by
  induction fuel generalizing tokens items with
  | zero => simp [readAll] at run
  | succ fuel ih =>
      unfold readAll at run
      rw [peek_bind] at run
      cases tokens with
      | nil =>
          obtain ⟨-, rfl⟩ : [] = items ∧ [] = rest := by simpa using run
          rfl
      | cons token tokens =>
          obtain ⟨lexeme, place⟩ := token
          cases lexeme with
          | keyword word =>
              cases word with
              | type | proc =>
                  simp only [List.head?_cons, skip_bind, bind_eq_ok] at run
                  obtain ⟨decl, behind, -, others, last, more, answer⟩ := run
                  obtain ⟨-, rfl⟩ := Prod.mk.inj (Except.ok.inj answer)
                  exact ih more
              | _ => simp at run
          | _ => simp at run

theorem stops_tokens (item : Item) (rest : List Token) : Stops [.mark .leftBracket] (item.tokens ++ rest) := by
  cases item <;> simp [tokens, TypeDef.tokens, ProcDef.tokens]

theorem readAll_reads {fuel : Nat} {items : List Item} (enough : items.length < fuel) :
    readAll fuel (items.flatMap tokens) = .ok (items, []) := by
  induction fuel generalizing items with
  | zero => omega
  | succ fuel ih =>
      unfold readAll
      cases items with
      | nil => rfl
      | cons item others =>
          have more : readAll fuel (others.flatMap tokens) = .ok (others, []) := ih (by simpa using enough)
          have ends : Stops [.mark .leftBracket] (others.flatMap tokens) := by
            cases others with
            | nil => simp
            | cons next others => simpa using next.stops_tokens (others.flatMap tokens)
          cases item with
          | type decl =>
              have split : (Item.type decl).tokens = ⟨.keyword .type, decl.place⟩ :: decl.tokens.tail := rfl
              simp [split, (TypeDef.read_reads decl).bind _ ends, map_of_ok _ more]
          | proc decl =>
              have split : (Item.proc decl).tokens = ⟨.keyword .proc, decl.place⟩ :: decl.tokens.tail := rfl
              simp [split, (ProcDef.read_reads decl).bind, map_of_ok _ more]

end Item

/-- A program is read just from its own tokens, all of them. -/
theorem Program.read_eq_ok {tokens rest : List Token} {program : Program} :
    Program.read tokens = .ok (program, rest) ↔ program.tokens = tokens ∧ rest = [] := by
  unfold Program.read
  constructor
  · intro run
    obtain ⟨items, behind, ran, answer⟩ := bind_eq_ok.mp run
    obtain ⟨rfl, rfl⟩ := Prod.mk.inj (Except.ok.inj answer)
    obtain rfl := Item.readAll_ends ran
    have taken : tokens = items.flatMap Item.tokens ++ [] := Item.readAll_sound _ ran
    exact ⟨by rw [taken, List.append_nil]; rfl, rfl⟩
  · rintro ⟨rfl, rfl⟩
    have count : program.items.length ≤ (program.items.flatMap Item.tokens).length :=
      length_le_flatMap fun item _ rest => item.stops_tokens rest
    exact bind_of_ok (Item.readAll_reads (Nat.lt_succ_of_le count))

theorem Program.tokens_injective : Function.Injective Program.tokens := by
  intro program other same
  have run : Program.read program.tokens = .ok (program, []) := read_eq_ok.mpr ⟨rfl, rfl⟩
  have again : Program.read program.tokens = .ok (other, []) := read_eq_ok.mpr ⟨same.symm, rfl⟩
  rw [run] at again
  exact (Prod.mk.inj (Except.ok.inj again)).1

end LifecycleHooks.Surface.Derivation

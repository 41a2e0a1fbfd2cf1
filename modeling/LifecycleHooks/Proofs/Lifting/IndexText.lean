import LifecycleHooks.Proofs.Lifting.PlaceText

/-!
# Indices in the text of places

A place inside of loops stands for one value for each choice of their indices.  All indices
are written alike, and reading a place puts a number in the place of each.  A type may have the
name of the index, but names of types stand in front of a parenthesis and indices behind it.
-/

namespace LifecycleHooks

/-- Numbers for the indices of a place, by how many indices stand behind. -/
abbrev Choice := Nat → Option Nat

/-- The numbers for the indices in front of the last one. -/
def Choice.outer (choice : Choice) : Choice := fun behind => choice (behind + 1)

/-- The characters of a place from the last one on, with the chosen numbers for the indices behind
the last parenthesis that opens. -/
def fillBackwards : Choice → List Char → List Char
  | _, [] => []
  | choice, ']' :: 'i' :: '[' :: rest =>
      ']' :: ((((choice 0).map Nat.repr).getD "i").toList.reverse ++ '[' :: fillBackwards choice.outer rest)
  | choice, next :: rest => if next = '(' then next :: rest else next :: fillBackwards choice rest

/-- The place with the chosen numbers for its indices. -/
def readPlace (choice : Choice) (place : String) : String :=
  String.ofList (fillBackwards choice place.toList.reverse).reverse

/-- Steps with the chosen numbers for the indices, the last step first. -/
def fillSteps : Choice → List PlaceStep → List PlaceStep
  | _, [] => []
  | choice, .each :: outer => ((choice 0).map .index).getD .each :: fillSteps choice.outer outer
  | choice, step :: outer => step :: fillSteps choice outer

@[simp]
theorem fillSteps_each (choice : Choice) (outer : List PlaceStep) :
    fillSteps choice (.each :: outer) = ((choice 0).map .index).getD .each :: fillSteps choice.outer outer := by
  rw [fillSteps]

theorem fillSteps_other {step : PlaceStep} (other : step ≠ .each) (choice : Choice) (outer : List PlaceStep) :
    fillSteps choice (step :: outer) = step :: fillSteps choice outer := by
  rw [fillSteps]
  exact other

section Characters

variable {choice : Choice} {next : Char} {rest text : List Char}

theorem fillBackwards_other (noOpening : next ≠ '(') (noClosing : next ≠ ']') :
    fillBackwards choice (next :: rest) = next :: fillBackwards choice rest := by
  rw [fillBackwards, if_neg noOpening]
  rintro _ rfl
  exact absurd rfl noClosing

/-- Where no bracket closes and no parenthesis opens there is no index. -/
theorem fillBackwards_append (noOpening : '(' ∉ text) (noClosing : ']' ∉ text) :
    fillBackwards choice (text ++ rest) = text ++ fillBackwards choice rest := by
  induction text with
  | nil => rfl
  | cons next text ih =>
      rw [List.mem_cons, not_or] at noOpening noClosing
      rw [List.cons_append, fillBackwards_other (Ne.symm noOpening.1) (Ne.symm noClosing.1),
        ih noOpening.2 noClosing.2, List.cons_append]

/-- What stands between brackets is kept unless it is an index. -/
theorem fillBackwards_bracket (noOpening : '(' ∉ text) (noClosing : ']' ∉ text) (noIndex : 'i' ∉ text) :
    fillBackwards choice (']' :: (text ++ '[' :: rest)) = ']' :: (text ++ '[' :: fillBackwards choice rest) := by
  have bracket : fillBackwards choice ('[' :: rest) = '[' :: fillBackwards choice rest :=
    fillBackwards_other (by decide) (by decide)
  rw [fillBackwards, if_neg (by decide), fillBackwards_append noOpening noClosing, bracket]
  intro behind _ same
  cases text with
  | nil => simp at same
  | cons first text =>
      obtain ⟨rfl, -⟩ := List.cons.inj same
      simp at noIndex

/-- In front of a parenthesis nothing is an index. -/
theorem fillBackwards_opening (choice : Choice) (text rest : List Char) :
    fillBackwards choice (text ++ '(' :: rest) = fillBackwards choice text ++ '(' :: rest := by
  fun_induction fillBackwards choice text with
  | case1 => simp [fillBackwards]
  | case2 choice text ih => simp [fillBackwards, ih]
  | case3 => simp [fillBackwards]
  | case4 choice next text notIndex noOpening ih =>
      rw [List.cons_append, fillBackwards, if_neg noOpening, ih, List.cons_append]
      rintro behind rfl same
      -- An index would end before the parenthesis.
      match text, same with
      | [], same => simp at same
      | [_], same => simp at same
      | first :: second :: text, same =>
          obtain ⟨isLetter, behind⟩ := List.cons.inj same
          exact notIndex text rfl (by rw [isLetter, (List.cons.inj behind).1])

end Characters

section Steps

variable {choice : Choice} {place other : String}

/-- A bracketed step behind a place whose indices are numbered. -/
theorem fillBackwards_subscript {step : PlaceStep} {inner : String} (isSubscript : step.subscript? = some inner)
    (noIndex : step ≠ .each)
    (outer : fillBackwards choice place.toList.reverse = other.toList.reverse) :
    fillBackwards choice (step.apply place).toList.reverse = (step.apply other).toList.reverse := by
  have digits (mark : Char) (noDigit : mark.isDigit = false) : mark ∉ inner.toList.reverse := by
    cases step with
    | index position =>
        obtain rfl := Option.some.inj isSubscript
        simpa using not_mem_repr noDigit
    | pointee =>
        obtain rfl := Option.some.inj isSubscript
        simp
    | each => exact absurd rfl noIndex
    | field => cases isSubscript
    | converted => cases isSubscript
  have read (rest : List Char) : fillBackwards choice (']' :: (inner.toList.reverse ++ '[' :: rest)) =
      ']' :: (inner.toList.reverse ++ '[' :: fillBackwards choice rest) :=
    fillBackwards_bracket (digits '(' (by decide)) (digits ']' (by decide)) (digits 'i' (by decide))
  simp [PlaceStep.toList_subscript isSubscript, read, outer]

theorem fillBackwards_each (outer : fillBackwards choice.outer place.toList.reverse = other.toList.reverse) :
    fillBackwards choice (PlaceStep.each.apply place).toList.reverse =
      ((((choice 0).map PlaceStep.index).getD .each).apply other).toList.reverse := by
  have isIndex : PlaceStep.each.subscript? = some "i" := rfl
  have isNumber (number : Nat) : (PlaceStep.index number).subscript? = some number.repr := rfl
  rw [PlaceStep.toList_subscript isIndex]
  cases chosen : choice 0 with
  | none => simp [PlaceStep.toList_subscript isIndex, fillBackwards, chosen, outer]
  | some number => simp [PlaceStep.toList_subscript (isNumber number), fillBackwards, chosen, outer]

theorem fillBackwards_field {name : String} (plain : IsPlain name)
    (outer : fillBackwards choice place.toList.reverse = other.toList.reverse) :
    fillBackwards choice ((PlaceStep.field name).apply place).toList.reverse =
      ((PlaceStep.field name).apply other).toList.reverse := by
  have noOpening : '(' ∉ name.toList.reverse ++ ['.'] := by simpa using plain '(' (by decide)
  have noClosing : ']' ∉ name.toList.reverse ++ ['.'] := by simpa using plain ']' (by decide)
  have read : fillBackwards choice (name.toList.reverse ++ ['.'] ++ place.toList.reverse) = _ :=
    fillBackwards_append noOpening noClosing
  simpa [PlaceStep.toList_field, outer] using read

theorem fillBackwards_converted (type : String)
    (outer : fillBackwards choice place.toList.reverse = other.toList.reverse) :
    fillBackwards choice ((PlaceStep.converted type).apply place).toList.reverse =
      ((PlaceStep.converted type).apply other).toList.reverse := by
  have closing : ∀ rest, fillBackwards choice (')' :: rest) = ')' :: fillBackwards choice rest :=
    fun rest => fillBackwards_other (by decide) (by decide)
  simp [PlaceStep.toList_converted, closing, fillBackwards_opening, outer]

end Steps

/-- Reading a place chooses the numbers of its steps. -/
theorem readPlace_placeOf {root : String} (plain : IsPlain root) {steps : List PlaceStep}
    (legible : ∀ step ∈ steps, step.IsLegible) (choice : Choice) :
    readPlace choice (placeOf root steps) = placeOf root (fillSteps choice steps) := by
  have characters : fillBackwards choice (placeOf root steps).toList.reverse =
      (placeOf root (fillSteps choice steps)).toList.reverse := by
    induction steps generalizing choice with
    | nil =>
        have noOpening : '(' ∉ root.toList.reverse := by simpa using plain '(' (by decide)
        have noClosing : ']' ∉ root.toList.reverse := by simpa using plain ']' (by decide)
        have whole : fillBackwards choice (root.toList.reverse ++ []) = _ := fillBackwards_append noOpening noClosing
        simpa [placeOf, fillSteps, fillBackwards] using whole
    | cons step outer ih =>
        obtain ⟨first, others⟩ := List.forall_mem_cons.mp legible
        cases step with
        | each =>
            rw [fillSteps_each]
            exact fillBackwards_each (ih others choice.outer)
        | field name => exact fillBackwards_field first (ih others choice)
        | converted type => exact fillBackwards_converted type (ih others choice)
        | index position => exact fillBackwards_subscript rfl (by simp) (ih others choice)
        | pointee => exact fillBackwards_subscript rfl (by simp) (ih others choice)
  rw [readPlace, characters, List.reverse_reverse, String.ofList_toList]

/-- An index in a place is a number once it is read, but one in the name of a type is none. -/
example : readPlace (fun _ => some 2) "Base[i](x[i].f)[i][0]" = "Base[i](x[2].f)[2][0]" := by decide +kernel

end LifecycleHooks

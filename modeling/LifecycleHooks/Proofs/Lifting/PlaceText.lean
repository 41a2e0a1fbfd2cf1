import Mathlib.Data.List.Basic

/-!
# The text of places

The place of a part of a value is written as the steps that lead to it: fields and indices
follow the place of the owner, and the name of a type that it is converted to stands in front
of it.  The last character tells the last step, and what is left is the place of the owner,
so different steps are never written alike.
-/

namespace LifecycleHooks

/-- A step from the place of a value to the place of a part of it. -/
inductive PlaceStep where
  | field (name : String)
  | index (position : Nat)
  /-- Every element, at the index of the innermost loop. -/
  | each
  | pointee
  | converted (type : String)
deriving DecidableEq, Repr

/-- The characters that steps are written with. -/
def placeMarks : List Char := ['.', '[', ']', '(', ')']

/-- A text without any of the characters that steps are written with. -/
def IsPlain (text : String) : Prop := ∀ mark ∈ placeMarks, mark ∉ text.toList

instance (text : String) : Decidable (IsPlain text) :=
  List.decidableBAll (fun mark => mark ∉ text.toList) placeMarks

namespace PlaceStep

/-- The place of a part. -/
def apply (place : String) : PlaceStep → String
  | .field name => s!"{place}.{name}"
  | .index position => s!"{place}[{position}]"
  | .each => s!"{place}[i]"
  | .pointee => s!"{place}[]"
  | .converted type => s!"{type}({place})"

/-- A step whose names do not get mixed up with the characters around them. -/
def IsLegible : PlaceStep → Prop
  | .field name => IsPlain name
  | .converted type => '(' ∉ type.toList
  | .index _ | .each | .pointee => True

/-- What stands between the brackets of a step that is written with brackets. -/
def subscript? : PlaceStep → Option String
  | .index position => some position.repr
  | .each => some "i"
  | .pointee => some ""
  | .field _ | .converted _ => none

end PlaceStep

/-- The place that steps lead to from a root, the last step first. -/
def placeOf (root : String) : List PlaceStep → String
  | [] => root
  | step :: outer => step.apply (placeOf root outer)

section Splitting

variable {mark : Char} {before behind other rest : List Char}

/-- A text is split at the last mark in one way. -/
theorem split_at_last (noneBehind : mark ∉ behind) (noneRest : mark ∉ rest)
    (same : before ++ mark :: behind = other ++ mark :: rest) : before = other ∧ behind = rest := by
  obtain ⟨between, rfl, split⟩ | ⟨between, rfl, split⟩ := List.append_eq_append_iff.mp same
  · cases between with
    | nil => exact ⟨by simp, (List.cons.inj split).2⟩
    | cons first between =>
        rw [List.cons_append, List.cons.injEq] at split
        exact absurd (by simp [split.2]) noneBehind
  · cases between with
    | nil => exact ⟨by simp, (List.cons.inj split).2.symm⟩
    | cons first between =>
        rw [List.cons_append, List.cons.injEq] at split
        exact absurd (by simp [split.2]) noneRest

/-- A text is split at the first mark in one way. -/
theorem split_at_first (noneBefore : mark ∉ before) (noneOther : mark ∉ other)
    (same : before ++ mark :: behind = other ++ mark :: rest) : before = other ∧ behind = rest := by
  obtain ⟨between, rfl, split⟩ | ⟨between, rfl, split⟩ := List.append_eq_append_iff.mp same
  · cases between with
    | nil => exact ⟨by simp, (List.cons.inj split).2⟩
    | cons first between =>
        rw [List.cons_append, List.cons.injEq] at split
        exact absurd (by simp [split.1]) noneOther
  · cases between with
    | nil => exact ⟨by simp, (List.cons.inj split).2.symm⟩
    | cons first between =>
        rw [List.cons_append, List.cons.injEq] at split
        exact absurd (by simp [split.1]) noneBefore

end Splitting

theorem isDigit_of_mem_repr {number : Nat} {digit : Char} (member : digit ∈ number.repr.toList) :
    digit.isDigit = true := by
  rw [Nat.toList_repr] at member
  exact Nat.isDigit_of_mem_toDigits (by decide) (by decide) member

theorem not_mem_repr {number : Nat} {mark : Char} (other : mark.isDigit = false) : mark ∉ number.repr.toList := by
  intro member
  rw [isDigit_of_mem_repr member] at other
  cases other

theorem eq_of_repr {number other : Nat} (same : number.repr = other.repr) : number = other := by
  have digits := congrArg String.toList same
  rw [Nat.toList_repr, Nat.toList_repr] at digits
  rw [← Nat.ofDigitChars_ten_toDigits (n := number), digits, Nat.ofDigitChars_ten_toDigits]

namespace PlaceStep

variable {place other : String} {step second : PlaceStep}

theorem toList_field (place name : String) :
    ((PlaceStep.field name).apply place).toList = place.toList ++ '.' :: name.toList := by
  change (place ++ "." ++ name).toList = _
  simp

theorem toList_converted (place type : String) :
    ((PlaceStep.converted type).apply place).toList = type.toList ++ '(' :: (place.toList ++ [')']) := by
  change (type ++ "(" ++ place ++ ")").toList = _
  simp

theorem toList_subscript {inner : String} (isSubscript : step.subscript? = some inner) (place : String) :
    (step.apply place).toList = place.toList ++ '[' :: (inner.toList ++ [']']) := by
  cases step with
  | index position =>
      obtain rfl := Option.some.inj isSubscript
      change (place ++ "[" ++ position.repr ++ "]").toList = _
      simp
  | each =>
      obtain rfl := Option.some.inj isSubscript
      change (place ++ "[i]").toList = _
      simp
  | pointee =>
      obtain rfl := Option.some.inj isSubscript
      change (place ++ "[]").toList = _
      simp
  | field => cases isSubscript
  | converted => cases isSubscript

theorem bracket_not_mem_subscript {inner : String} (isSubscript : step.subscript? = some inner) :
    '[' ∉ inner.toList := by
  cases step with
  | index position =>
      obtain rfl := Option.some.inj isSubscript
      exact not_mem_repr (by decide)
  | each =>
      obtain rfl := Option.some.inj isSubscript
      decide
  | pointee =>
      obtain rfl := Option.some.inj isSubscript
      decide
  | field => cases isSubscript
  | converted => cases isSubscript

/-- Subscripts tell the steps apart. -/
theorem eq_of_subscript {inner : String} (isSubscript : step.subscript? = some inner)
    (same : second.subscript? = some inner) : step = second := by
  have noLetter (position : Nat) : position.repr ≠ "i" := by
    intro isLetter
    have noDigit : 'i' ∉ position.repr.toList := not_mem_repr (by decide)
    exact noDigit (by simp [isLetter])
  cases step <;> cases second <;> simp only [subscript?, Option.some.injEq, reduceCtorEq] at isSubscript same <;>
    subst isSubscript
  case index.index => rw [eq_of_repr same]
  case index.each => exact absurd same.symm (noLetter _)
  case index.pointee => exact absurd same.symm Nat.repr_ne_empty
  case each.index => exact absurd same (noLetter _)
  case pointee.index => exact absurd same Nat.repr_ne_empty
  all_goals first | rfl | simp at same

section LastCharacter

theorem last_subscript {inner : String} (isSubscript : step.subscript? = some inner) (place : String) :
    (step.apply place).toList.getLast? = some ']' := by
  rw [toList_subscript isSubscript, ← List.cons_append, ← List.append_assoc, List.getLast?_concat]

theorem last_converted (place type : String) :
    ((PlaceStep.converted type).apply place).toList.getLast? = some ')' := by
  rw [toList_converted, ← List.cons_append, ← List.append_assoc, List.getLast?_concat]

theorem last_field {name : String} (plain : IsPlain name) (place : String) {mark : Char} (isMark : mark ∈ placeMarks)
    (notDot : mark ≠ '.') : ((PlaceStep.field name).apply place).toList.getLast? ≠ some mark := by
  intro last
  have inside : mark ∈ '.' :: name.toList := by
    rw [toList_field, List.getLast?_append_of_ne_nil _ (List.cons_ne_nil _ _)] at last
    exact List.mem_of_getLast? last
  rcases List.mem_cons.mp inside with isDot | inName
  · exact notDot isDot
  · exact plain mark isMark inName

end LastCharacter

/-- A step is written with one of the marks. -/
theorem mark_mem_apply (step : PlaceStep) (place : String) : ∃ mark ∈ placeMarks, mark ∈ (step.apply place).toList := by
  cases isSubscript : step.subscript? with
  | some inner => exact ⟨'[', by decide, by simp [toList_subscript isSubscript]⟩
  | none =>
      cases step with
      | field name => exact ⟨'.', by decide, by simp [toList_field]⟩
      | converted type => exact ⟨'(', by decide, by simp [toList_converted]⟩
      | _ => cases isSubscript

/-- The text of a place tells its last step and the place of the owner. -/
theorem apply_injective (legible : step.IsLegible) (alsoLegible : second.IsLegible)
    (same : step.apply place = second.apply other) : step = second ∧ place = other := by
  have characters := congrArg String.toList same
  have last := congrArg List.getLast? characters
  have closing : ']' ∈ placeMarks ∧ ')' ∈ placeMarks := by decide
  cases isSubscript : step.subscript? with
  | some inner =>
      cases isOther : second.subscript? with
      | some outer =>
          rw [toList_subscript isSubscript, toList_subscript isOther] at characters
          obtain ⟨places, subscripts⟩ := split_at_last
            (by simp [bracket_not_mem_subscript isSubscript]) (by simp [bracket_not_mem_subscript isOther]) characters
          obtain rfl := String.toList_inj.mp (List.append_cancel_right subscripts)
          exact ⟨eq_of_subscript isSubscript isOther, String.toList_inj.mp places⟩
      | none =>
          rw [last_subscript isSubscript] at last
          cases second with
          | field name => exact absurd last.symm (last_field alsoLegible other closing.1 (by decide))
          | converted type => simp [last_converted] at last
          | _ => cases isOther
  | none =>
      cases isOther : second.subscript? with
      | some outer =>
          rw [last_subscript isOther] at last
          cases step with
          | field name => exact absurd last (last_field legible place closing.1 (by decide))
          | converted type => simp [last_converted] at last
          | _ => cases isSubscript
      | none =>
          cases step with
          | field name =>
              cases second with
              | field otherName =>
                  rw [toList_field, toList_field] at characters
                  obtain ⟨places, names⟩ :=
                    split_at_last (legible '.' (by decide)) (alsoLegible '.' (by decide)) characters
                  rw [String.toList_inj.mp names]
                  exact ⟨rfl, String.toList_inj.mp places⟩
              | converted type =>
                  rw [last_converted] at last
                  exact absurd last (last_field legible place closing.2 (by decide))
              | _ => cases isOther
          | converted type =>
              cases second with
              | field name =>
                  rw [last_converted] at last
                  exact absurd last.symm (last_field alsoLegible other closing.2 (by decide))
              | converted otherType =>
                  rw [toList_converted, toList_converted] at characters
                  obtain ⟨types, places⟩ := split_at_first legible alsoLegible characters
                  rw [String.toList_inj.mp types]
                  exact ⟨rfl, String.toList_inj.mp (List.append_cancel_right places)⟩
              | _ => cases isOther
          | _ => cases isSubscript

end PlaceStep

/-- Different steps from a plain root are written differently. -/
theorem placeOf_injective {root : String} (plain : IsPlain root) {steps others : List PlaceStep}
    (legible : ∀ step ∈ steps, step.IsLegible) (alsoLegible : ∀ step ∈ others, step.IsLegible)
    (same : placeOf root steps = placeOf root others) : steps = others := by
  induction steps generalizing others with
  | nil =>
      cases others with
      | nil => rfl
      | cons other others =>
          obtain ⟨mark, isMark, inside⟩ := other.mark_mem_apply (placeOf root others)
          have isRoot : root = other.apply (placeOf root others) := same
          exact absurd (isRoot ▸ inside) (plain mark isMark)
  | cons step steps ih =>
      cases others with
      | nil =>
          obtain ⟨mark, isMark, inside⟩ := step.mark_mem_apply (placeOf root steps)
          have isRoot : step.apply (placeOf root steps) = root := same
          exact absurd (isRoot ▸ inside) (plain mark isMark)
      | cons other others =>
          obtain ⟨first, rest⟩ := List.forall_mem_cons.mp legible
          obtain ⟨alsoFirst, alsoRest⟩ := List.forall_mem_cons.mp alsoLegible
          obtain ⟨rfl, owners⟩ := PlaceStep.apply_injective first alsoFirst same
          rw [ih rest alsoRest owners]

end LifecycleHooks

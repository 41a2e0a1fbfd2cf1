import LifecycleHooks.Report
import Mathlib.Data.List.Nodup

/-!
# Values under names

Values are put under names one after the other.  A name keeps the last value that was put
under it, and no other name is affected.  Where all names are different nothing is replaced,
and the values stand in the order in which they were put.
-/

namespace LifecycleHooks

variable {Value : Type} {name key : String} {value : Value} {values start entries : List (String × Value)}

/-- Put values under their names, one after the other. -/
def putAll (start entries : List (String × Value)) : List (String × Value) :=
  entries.foldl (fun values entry => putNamed entry.1 entry.2 values) start

theorem putAll_cons (start : List (String × Value)) (entry : String × Value) (entries : List (String × Value)) :
    putAll start (entry :: entries) = putAll (putNamed entry.1 entry.2 start) entries :=
  rfl

theorem lookup_putNamed_other (differ : key ≠ name) :
    (putNamed name value values).lookup key = values.lookup key := by
  induction values with
  | nil => simp [putNamed, differ]
  | cons entry rest ih =>
      obtain ⟨other, earlier⟩ := entry
      by_cases same : other = name
      · subst same
        simp [putNamed, List.lookup_cons, beq_false_of_ne differ]
      · simp [putNamed, same, List.lookup_cons, ih]

/-- The last value that was put under a name is found there. -/
theorem lookup_putAll (start entries : List (String × Value)) (key : String) :
    (putAll start entries).lookup key = (entries.reverse ++ start).lookup key := by
  induction entries generalizing start with
  | nil => rfl
  | cons entry entries ih =>
      rw [putAll_cons, ih, List.reverse_cons, List.append_assoc, List.lookup_append, List.lookup_append]
      refine congrArg _ ?_
      by_cases same : key = entry.1
      · subst same
        rw [lookup_putNamed, List.singleton_append, List.lookup_cons_self]
      · rw [lookup_putNamed_other same, List.singleton_append, List.lookup_cons, beq_false_of_ne same]

theorem names_putNamed (name : String) (value : Value) (values : List (String × Value)) :
    (putNamed name value values).map Prod.fst =
      if name ∈ values.map Prod.fst then values.map Prod.fst else values.map Prod.fst ++ [name] := by
  induction values with
  | nil => rfl
  | cons entry rest ih =>
      obtain ⟨other, earlier⟩ := entry
      by_cases same : other = name
      · simp [putNamed, same]
      · rw [putNamed, if_neg same, List.map_cons, ih, List.map_cons]
        by_cases known : name ∈ rest.map Prod.fst
        · rw [if_pos known, if_pos (List.mem_cons_of_mem other known)]
        · rw [if_neg known, if_neg fun member => known (List.mem_of_ne_of_mem (Ne.symm same) member), List.cons_append]

/-- No name is there twice. -/
theorem nodup_putNamed (distinct : (values.map Prod.fst).Nodup) :
    ((putNamed name value values).map Prod.fst).Nodup := by
  rw [names_putNamed]
  split
  · exact distinct
  · rename_i new
    exact distinct.append (List.nodup_singleton name) (List.disjoint_singleton.mpr new)

theorem nodup_putAll (distinct : (start.map Prod.fst).Nodup) : ((putAll start entries).map Prod.fst).Nodup := by
  induction entries generalizing start with
  | nil => exact distinct
  | cons entry entries ih => exact ih (nodup_putNamed distinct)

/-- A value under a new name stands behind the others. -/
theorem putNamed_of_new (new : name ∉ values.map Prod.fst) :
    putNamed name value values = values ++ [(name, value)] := by
  induction values with
  | nil => rfl
  | cons entry rest ih =>
      obtain ⟨other, earlier⟩ := entry
      obtain ⟨differ, behind⟩ := not_or.mp (List.mem_cons.not.mp new)
      rw [putNamed, if_neg (Ne.symm differ), ih behind, List.cons_append]

theorem putAll_of_distinct (distinct : ((start ++ entries).map Prod.fst).Nodup) :
    putAll start entries = start ++ entries := by
  induction entries generalizing start with
  | nil => exact (List.append_nil start).symm
  | cons entry entries ih =>
      have new : entry.1 ∉ start.map Prod.fst := by
        rw [List.map_append] at distinct
        exact fun known => List.disjoint_of_nodup_append distinct known List.mem_cons_self
      rw [putAll_cons, putNamed_of_new new, ih (by simpa using distinct), List.append_assoc]
      rfl

/-- Nothing is replaced exactly when all names are different. -/
theorem putAll_eq_iff : putAll [] entries = entries ↔ (entries.map Prod.fst).Nodup := by
  constructor
  · intro same
    rw [← same]
    exact nodup_putAll List.nodup_nil
  · exact fun distinct => putAll_of_distinct distinct

end LifecycleHooks

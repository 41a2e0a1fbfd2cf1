import Mathlib.Data.List.Forall2
import Mathlib.Data.List.Lex

/-!
# Listing along paths

A recursion goes on from a value to other values, and a path of it is the list of the
turns taken.  A list of what stands at the ends of paths is in the order of the paths.
What it leaves out lies behind a cut, which stands for all that follows from a value.
-/

namespace LifecycleHooks

variable {Value Item : Type}

/-- Items with their paths, that list all items of interest in order.  One that is missing
lies behind a cut, and no cut has a short path. -/
structure Lists (isFound : Item → Prop) (stands : List Nat → Item → Prop) (least : Nat)
    (marked : List (List Nat × Item)) : Prop where
  ordered : (marked.map Prod.fst).Pairwise (· < ·)
  sound : ∀ entry ∈ marked, stands entry.1 entry.2
  complete : ∀ path item, isFound item → stands path item →
    (path, item) ∈ marked ∨ ∃ cut ∈ marked, ¬ isFound cut.2 ∧ cut.1 <+: path
  deep : ∀ entry ∈ marked, ¬ isFound entry.2 → least ≤ entry.1.length

/-- What stands at the end of a path that starts with the choice of a value. -/
inductive StandsAmong (stands : Value → List Nat → Item → Prop) (inside : Value → Item → Item)
    (values : List Value) : (path : List Nat) → Item → Prop where
  | taken {turn : Nat} {value : Value} {turns : List Nat} {item : Item}
      (taken : values[turn]? = some value) (standing : stands value turns item) :
      StandsAmong stands inside values (turn :: turns) (inside value item)

section Turns

/-- The path that takes the next turn at its start. -/
def nextTurn : List Nat → List Nat
  | [] => []
  | turn :: turns => (turn + 1) :: turns

theorem nextTurn_prefix {path other : List Nat} (leads : path <+: other) : nextTurn path <+: nextTurn other := by
  obtain ⟨rest, rfl⟩ := leads
  cases path with
  | nil => exact List.nil_prefix
  | cons turn turns => exact ⟨rest, rfl⟩

theorem nextTurn_lt {path other : List Nat} (before : path < other) : nextTurn path < nextTurn other := by
  cases path with
  | nil =>
      cases other with
      | nil => exact absurd before (List.not_lt_nil _)
      | cons turn turns => exact .nil
  | cons turn turns =>
      cases other with
      | nil => exact absurd before (List.not_lt_nil _)
      | cons turn' turns' =>
          unfold nextTurn
          rw [List.cons_lt_cons_iff] at before ⊢
          exact before.imp Nat.succ_lt_succ fun ⟨same, less⟩ => ⟨congrArg _ same, less⟩

theorem length_nextTurn (path : List Nat) : (nextTurn path).length = path.length := by
  cases path <;> rfl

end Turns

section Listing

variable {stands : Value → List Nat → Item → Prop} {inside : Value → Item → Item} {isFound : Item → Prop}

theorem lists_nil (least : Nat) : Lists isFound (StandsAmong stands inside []) least [] where
  ordered := .nil
  sound := by simp
  complete _ _ _ standing := by
    cases standing with
    | taken taken => cases taken
  deep := by simp

/-- What stands among values stands behind the first of them or among the others. -/
theorem standsAmong_cons {value : Value} {rest : List Value} {path : List Nat} {item : Item} :
    StandsAmong stands inside (value :: rest) path item ↔
      (∃ turns inner, stands value turns inner ∧ path = 0 :: turns ∧ item = inside value inner) ∨
      ∃ earlier, StandsAmong stands inside rest earlier item ∧ path = nextTurn earlier := by
  constructor
  · intro standing
    cases standing with
    | @taken turn other turns inner taken standing =>
        cases turn with
        | zero =>
            obtain rfl := Option.some.inj taken
            exact .inl ⟨turns, inner, standing, rfl, rfl⟩
        | succ turn => exact .inr ⟨turn :: turns, .taken taken standing, rfl⟩
  · rintro (⟨turns, inner, standing, rfl, rfl⟩ | ⟨earlier, standing, rfl⟩)
    · exact .taken rfl standing
    · cases standing with
      | @taken turn other turns inner taken standing =>
          have later : (value :: rest)[turn + 1]? = some other := taken
          exact .taken later standing

/-- The items for values are those for the first of them and then those for the others. -/
theorem lists_cons {value : Value} {rest : List Value} {least : Nat} {own others : List (List Nat × Item)}
    (kept : ∀ item, isFound (inside value item) ↔ isFound item) (first : Lists isFound (stands value) least own)
    (behind : Lists isFound (StandsAmong stands inside rest) (least + 1) others) :
    Lists isFound (StandsAmong stands inside (value :: rest)) (least + 1)
      (own.map (fun entry => (0 :: entry.1, inside value entry.2)) ++
        others.map (fun entry => (nextTurn entry.1, entry.2))) where
  ordered := by
    rw [List.map_append, List.map_map, List.map_map, List.pairwise_append]
    refine ⟨?_, ?_, ?_⟩
    · refine List.pairwise_map.mpr ((List.pairwise_map.mp first.ordered).imp fun before => ?_)
      exact List.cons_lt_cons_iff.mpr (.inr ⟨rfl, before⟩)
    · exact List.pairwise_map.mpr ((List.pairwise_map.mp behind.ordered).imp nextTurn_lt)
    · intro path isFirst other isLater
      obtain ⟨entry, _, rfl⟩ := List.mem_map.mp isFirst
      obtain ⟨⟨later, item⟩, isMarked, rfl⟩ := List.mem_map.mp isLater
      cases behind.sound (later, item) isMarked with
      | taken => exact List.cons_lt_cons_iff.mpr (.inl (Nat.succ_pos _))
  sound entry member := by
    rw [standsAmong_cons]
    cases List.mem_append.mp member with
    | inl isFirst =>
        obtain ⟨entry, isMarked, rfl⟩ := List.mem_map.mp isFirst
        exact .inl ⟨entry.1, entry.2, first.sound entry isMarked, rfl, rfl⟩
    | inr isLater =>
        obtain ⟨entry, isMarked, rfl⟩ := List.mem_map.mp isLater
        exact .inr ⟨entry.1, behind.sound entry isMarked, rfl⟩
  complete path item found standing := by
    rcases standsAmong_cons.mp standing with ⟨turns, inner, own, rfl, rfl⟩ | ⟨earlier, later, rfl⟩
    · cases first.complete turns inner ((kept inner).mp found) own with
      | inl listed => exact .inl (List.mem_append_left _ (List.mem_map.mpr ⟨_, listed, rfl⟩))
      | inr left =>
          obtain ⟨cut, isCut, notFound, leads⟩ := left
          exact .inr ⟨_, List.mem_append_left _ (List.mem_map.mpr ⟨cut, isCut, rfl⟩),
            fun found => notFound ((kept _).mp found), List.cons_prefix_cons.mpr ⟨rfl, leads⟩⟩
    · cases behind.complete earlier item found later with
      | inl listed => exact .inl (List.mem_append_right _ (List.mem_map.mpr ⟨_, listed, rfl⟩))
      | inr left =>
          obtain ⟨cut, isCut, notFound, leads⟩ := left
          exact .inr ⟨_, List.mem_append_right _ (List.mem_map.mpr ⟨cut, isCut, rfl⟩), notFound,
            nextTurn_prefix leads⟩
  deep entry member notFound := by
    cases List.mem_append.mp member with
    | inl isFirst =>
        obtain ⟨entry, isMarked, rfl⟩ := List.mem_map.mp isFirst
        exact Nat.succ_le_succ (first.deep entry isMarked fun found => notFound ((kept _).mpr found))
    | inr isLater =>
        obtain ⟨entry, isMarked, rfl⟩ := List.mem_map.mp isLater
        rw [length_nextTurn]
        exact behind.deep entry isMarked notFound

/-- The items for a value, given as they are, come before those for the others. -/
theorem lists_value {value : Value} {result others : List Item} {rest : List Value} {least : Nat}
    (first : ∃ own, own.map Prod.snd = result ∧ Lists isFound (stands value) least own)
    (behind : ∃ later, later.map Prod.snd = others ∧
      Lists isFound (StandsAmong stands (fun _ item => item) rest) (least + 1) later) :
    ∃ marked, marked.map Prod.snd = result ++ others ∧
      Lists isFound (StandsAmong stands (fun _ item => item) (value :: rest)) (least + 1) marked := by
  obtain ⟨own, rfl, lists⟩ := first
  obtain ⟨later, rfl, listsLater⟩ := behind
  exact ⟨_, by simp [Function.comp_def], lists_cons (fun _ => .rfl) lists listsLater⟩

theorem lists_values {Key : Type} {keys : List Key} {value : Key → Value} {results : Key → List Item}
    {others : List Item} {rest : List Value} {least : Nat}
    (each : ∀ key ∈ keys, ∃ own, own.map Prod.snd = results key ∧ Lists isFound (stands (value key)) least own)
    (behind : ∃ later, later.map Prod.snd = others ∧
      Lists isFound (StandsAmong stands (fun _ item => item) rest) (least + 1) later) :
    ∃ marked, marked.map Prod.snd = keys.flatMap results ++ others ∧
      Lists isFound (StandsAmong stands (fun _ item => item) (keys.map value ++ rest)) (least + 1) marked := by
  induction keys with
  | nil => exact behind
  | cons key keys ih =>
      obtain ⟨first, remaining⟩ := List.forall_mem_cons.mp each
      rw [List.flatMap_cons, List.append_assoc]
      exact lists_value first (ih remaining)

theorem Lists.mono {stands : List Nat → Item → Prop} {least less : Nat} {marked : List (List Nat × Item)}
    (lists : Lists isFound stands least marked) (fewer : less ≤ least) : Lists isFound stands less marked :=
  { lists with deep := fun entry member notFound => fewer.trans (lists.deep entry member notFound) }

/-- A cut alone leaves everything open. -/
theorem lists_cut {stands : List Nat → Item → Prop} {cut : Item} (here : stands [] cut)
    (notFound : ¬ isFound cut) : Lists isFound stands 0 [([], cut)] where
  ordered := List.pairwise_singleton _ _
  sound := List.forall_mem_singleton.mpr here
  complete _ _ _ _ := .inr ⟨_, List.mem_singleton_self _, notFound, List.nil_prefix⟩
  deep := List.forall_mem_singleton.mpr fun _ => Nat.zero_le _

/-- A value lists what stands there and what stands among the values that follow. -/
theorem lists_here {stands : List Nat → Item → Prop} {among : List Nat → Item → Prop} {own : List Item}
    {least : Nat} {marked : List (List Nat × Item)} (few : own.length ≤ 1) (found : ∀ item ∈ own, isFound item)
    (here : ∀ item ∈ own, stands [] item) (onwards : ∀ path item, among path item → path ≠ [] ∧ stands path item)
    (only : ∀ path item, isFound item → stands path item → path = [] ∧ item ∈ own ∨ among path item)
    (lists : Lists isFound among least marked) :
    Lists isFound stands least (own.map (fun item => ([], item)) ++ marked) where
  ordered := by
    rw [List.map_append, List.map_map]
    refine List.pairwise_append.mpr ⟨?_, lists.ordered, fun path isHere other isLater => ?_⟩
    · match own, few with
      | [], _ => exact .nil
      | [item], _ => exact List.pairwise_singleton _ _
    · obtain ⟨item, _, rfl⟩ := List.mem_map.mp isHere
      obtain ⟨⟨later, next⟩, isMarked, rfl⟩ := List.mem_map.mp isLater
      have notHere := (onwards later next (lists.sound _ isMarked)).1
      cases later with
      | nil => exact absurd rfl notHere
      | cons turn turns => exact .nil
  sound entry member := by
    cases List.mem_append.mp member with
    | inl isHere =>
        obtain ⟨item, isOwn, rfl⟩ := List.mem_map.mp isHere
        exact here item isOwn
    | inr isLater => exact (onwards entry.1 entry.2 (lists.sound entry isLater)).2
  complete path item isFound_ standing := by
    rcases only path item isFound_ standing with ⟨rfl, isOwn⟩ | later
    · exact .inl (List.mem_append_left _ (List.mem_map.mpr ⟨item, isOwn, rfl⟩))
    · cases lists.complete path item isFound_ later with
      | inl listed => exact .inl (List.mem_append_right _ listed)
      | inr left =>
          obtain ⟨cut, isCut, rest⟩ := left
          exact .inr ⟨cut, List.mem_append_right _ isCut, rest⟩
  deep entry member notFound := by
    cases List.mem_append.mp member with
    | inl isHere =>
        obtain ⟨item, isOwn, rfl⟩ := List.mem_map.mp isHere
        exact absurd (found item isOwn) notFound
    | inr isLater => exact lists.deep entry isLater notFound

/-- Where nothing of interest stands, nothing has to be listed. -/
theorem lists_none {stands : List Nat → Item → Prop} (least : Nat)
    (nothing : ∀ path item, isFound item → ¬ stands path item) : Lists isFound stands least [] where
  ordered := .nil
  sound := by simp
  complete path item found standing := absurd standing (nothing path item found)
  deep := by simp

end Listing

theorem forall₂_append_left {First Second : Type} {related : First → Second → Prop} {items others : List First}
    {results : List Second} (each : List.Forall₂ related (items ++ others) results) :
    ∃ first rest, results = first ++ rest ∧ List.Forall₂ related items first ∧
      List.Forall₂ related others rest := by
  induction items generalizing results with
  | nil => exact ⟨[], results, rfl, .nil, each⟩
  | cons item items ih =>
      cases each with
      | cons isRelated behind =>
          obtain ⟨first, rest, rfl, before, after⟩ := ih behind
          exact ⟨_ :: first, rest, rfl, .cons isRelated before, after⟩

end LifecycleHooks

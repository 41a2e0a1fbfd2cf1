import LifecycleHooks.Analysis
import LifecycleHooks.Proofs.Surface.Lexing
import LifecycleHooks.Proofs.Surface.ProgramReading
import LifecycleHooks.Proofs.Surface.Spawning

/-!
# The texts of the language

A text is a program when it lexes as the tokens of a derivation whose spawns are of calls.  Just
these texts are accepted, and their derivations are unique.
-/

namespace LifecycleHooks.Surface

/-- A derivation spells a text that lexes as its tokens. -/
def Derivation.Program.Spells (derivation : Derivation.Program) (source : String) : Prop :=
  Lexes .start source.toList derivation.tokens

theorem Derivation.Program.spells_iff {derivation : Derivation.Program} {source : String} :
    derivation.Spells source ↔
      (Lexed.read source).stray = none ∧ Derivation.Program.read (Lexed.read source).tokens = .ok (derivation, []) := by
  rw [Spells, ← Lexed.read_eq_iff, read_eq_ok]
  constructor
  · intro run
    rw [run]
    exact ⟨rfl, rfl, rfl⟩
  · rintro ⟨whole, same, -⟩
    rw [same, ← whole]

theorem Derivation.Program.Spells.unique {derivation other : Derivation.Program} {source : String}
    (spells : derivation.Spells source) (again : other.Spells source) : derivation = other := by
  have run := Lexed.read_eq_iff.mpr spells
  rw [Lexed.read_eq_iff.mpr again] at run
  exact tokens_injective (Lexed.mk.inj run).1.symm

theorem parse_eq_ok {source : String} {program : Program} :
    parse source = .ok program ↔
      ∃ derivation : Derivation.Program,
        derivation.Spells source ∧ derivation.SpawnsCalls ∧ derivation.tree = program := by
  simp only [Derivation.Program.spells_iff, ← Derivation.Program.strayOperand?_tree]
  unfold parse Lexed.program
  constructor
  · intro run
    split at run
    case h_1 => cases run
    case h_2 => cases run
    case h_3 derivation rest read whole =>
      obtain ⟨-, rfl⟩ := Derivation.Program.read_eq_ok.mp read
      split at run
      case h_1 => cases run
      case h_2 calls => exact ⟨derivation, ⟨whole, read⟩, calls, Except.ok.inj run⟩
  · rintro ⟨derivation, ⟨whole, read⟩, calls, rfl⟩
    rw [read, whole]
    simp only [calls]

/-- Parentheses leave nothing in the tree, fields nest to the left, and a branch behind `else` is
the only statement of a block. -/
example : (parse "proc f() { if (a) { } else if (b.c).d { } }").toOption.map Program.procs =
    some [⟨⟨1, 1⟩, "f", false, [], [], none, .mk ⟨1, 10⟩
      [.branch ⟨1, 12⟩ (.name ⟨1, 16⟩ "a") (.mk ⟨1, 19⟩ []) (some (.mk ⟨1, 28⟩
        [.branch ⟨1, 28⟩ (.field ⟨1, 31⟩ (.field ⟨1, 32⟩ (.name ⟨1, 32⟩ "b") "c") "d") (.mk ⟨1, 39⟩ []) none]))]⟩] := by
  cbv

end LifecycleHooks.Surface

/-!
# First lines

A message is cut at its first line break.  Besides line feed and carriage
return, the vertical tab, the form feed, the three information separators, the
next-line character and the two Unicode separators break a line.
-/

namespace LifecycleHooks.Text

/-- Whether a character ends a line of a message. -/
def isLineBreak (character : Char) : Bool :=
  character ∈ ['\n', '\r', '\x0b', '\x0c', '\x1c', '\x1d', '\x1e', '\u0085', '\u2028', '\u2029']

/-- A text up to its first line break. -/
def firstLine (text : String) : String :=
  String.ofList (text.toList.takeWhile (!isLineBreak ·))

theorem isLineBreak_of_mem_firstLine {text : String} {character : Char}
    (mem : character ∈ (firstLine text).toList) : isLineBreak character = false := by
  simp only [firstLine, String.toList_ofList] at mem
  simpa using List.all_eq_true.mp List.all_takeWhile character mem

end LifecycleHooks.Text

import StackLang.Source.Span

/-!
# Lines

Lines are numbered from 1, and a line feed belongs to the line that it ends. A text with `n`
line feeds has `n + 1` lines, of which the last may be empty.

* `splitLines_flatten`: the lines, put together, are the text.
* `LineStarts` holds the byte position of each line's start, to number positions and to give
  back the span of a line.
-/
namespace StackLang

/-- The lines of a text, each with the line feed that ends it. -/
def splitLines : List Char → List (List Char)
  | [] => [[]]
  | c :: cs =>
    if c = '\n' then [c] :: splitLines cs
    else match splitLines cs with
      | [] => [[c]]
      | line :: lines => (c :: line) :: lines

@[simp] theorem splitLines_flatten (cs : List Char) : (splitLines cs).flatten = cs := by
  induction cs with
  | nil => rfl
  | cons c cs ih =>
    unfold splitLines
    split
    · simp [ih]
    · split
      · rename_i h; simp_all
      · rename_i h; simp_all

/-- The byte positions, counted from `position`, at which the lines after the first one start. -/
def laterLineStarts (position : Nat) : List Char → List Nat
  | [] => []
  | c :: cs =>
    let next := position + c.utf8Size
    if c = '\n' then next :: laterLineStarts next cs else laterLineStarts next cs

/-- Where the lines of a source start, in order, and where the last one ends. -/
structure LineStarts where
  starts : List Nat
  size : Nat
  deriving DecidableEq, Repr

namespace LineStarts

/-- Where the lines of a source text start. -/
def ofSource (source : String) : LineStarts :=
  ⟨0 :: laterLineStarts 0 source.toList, byteLength source.toList⟩

/-- Where the lines of a source text start, if it is short enough. -/
def ofSource? (source : String) : Option LineStarts :=
  if IsShort source then some (.ofSource source) else none

/-- The number of the line that holds a position: as many lines as start no later than it. -/
def lineAt (lines : LineStarts) (position : Nat) : Nat :=
  lines.starts.countP (· ≤ position)

/-- The number of the line on which a span starts. -/
def firstLine (lines : LineStarts) (s : Span) : Nat := lines.lineAt s.start

/-- The number of the line that holds the last byte of a span, or its start if it has none. -/
def lastLine (lines : LineStarts) (s : Span) : Nat := lines.lineAt (max (s.stop - 1) s.start)

/-- The span of the line with a number, its line feed included. -/
def lineSpan? (lines : LineStarts) (number : Nat) : Option Span := do
  guard (number ≠ 0)
  let start ← lines.starts[number - 1]?
  return ⟨start, lines.starts[number]?.getD lines.size⟩

end LineStarts
end StackLang

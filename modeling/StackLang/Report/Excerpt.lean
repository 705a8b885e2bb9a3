import StackLang.Report.Highlight
import StackLang.Source.Lines
import StackLang.Text.Padding

/-!
# Lines of source around an error

An excerpt names the file and the line that a span starts on, and shows each line that the span
touches with its number, in colours. Each line is coloured by itself, so a string that goes over
several lines is seen as unclosed in the first of them.
-/
namespace StackLang

/-- The name of a source: standard input is a dash on the command line. -/
def sourceName (file : String) : String := if file = "-" then "STDIN" else file

/-- A row of an excerpt: a line with its number, ended by one line feed. -/
def excerptRow (number : Nat) (line : List Char) : List Styled :=
  [⟨.plain, padded ' ' .right 3 (toString number) ++ " "⟩, ⟨.dimmed, "│"⟩] ++
  (if line.isEmpty then [] else [⟨.plain, " "⟩]) ++
  highlight (String.ofList line) ++
  (if line.getLast? = some '\n' then [] else [⟨.plain, "\n"⟩])

/-- The lines of a source from one number to another, with their numbers. -/
def linesBetween (source : String) (first last : Nat) : List (Nat × List Char) :=
  ((splitLines source.toList).zipIdx 1).filterMap fun (line, number) =>
    if first ≤ number ∧ number ≤ last then some (number, line) else none

/-- The pieces of the excerpt around a span. -/
def excerpt (file source : String) (s : Span) : List Styled :=
  let lines := LineStarts.ofSource source
  let first := lines.firstLine s
  let last := lines.lastLine s
  [⟨.plain, "    "⟩, ⟨.dimmed, "╭─["⟩, ⟨.plain, sourceName file⟩, ⟨.dimmed, ":"⟩,
    ⟨.plain, toString first⟩, ⟨.dimmed, "]"⟩, ⟨.plain, "\n"⟩] ++
  (linesBetween source first last).flatMap (fun (number, line) => excerptRow number line) ++
  [⟨.dimmed, "────╯"⟩]

end StackLang

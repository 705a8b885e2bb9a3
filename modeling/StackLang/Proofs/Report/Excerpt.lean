import Mathlib.Data.List.Forall2
import StackLang.Proofs.Report.Highlight
import StackLang.Proofs.Source.Lines
import StackLang.Proofs.Text.Fields
import StackLang.Report.Excerpt

/-!
# What an excerpt shows

An excerpt can be made line by line, from the line on which its span starts to that of its end: the span of
each line is looked up by its number, the line is read by this span, and its colours by the positions of its
own tokens. None of this fails, whatever the span is, and what comes out is the excerpt. The codes of styles
are any that stay on their line.

Results:
* `linesBetween_eq`: the lines of an excerpt, by their numbers.
* `showsLine_excerptRow`: what a row shows, and that it is one row.
* `excerpt_exact`: the heading of an excerpt and its rows.
-/
namespace StackLang

/-! ## Rows by lookup -/

/-- The row of the line with a number, read by its span. -/
def rowAt? (source : String) (lines : LineStarts) (number : Nat) : Option (List Styled) := do
  let span ← lines.lineSpan? number
  let line ← span.text? source
  let pieces ← highlight? line
  return [⟨.plain, padded ' ' .right 3 (toString number) ++ " "⟩, ⟨.dimmed, "│"⟩] ++
    (if line.isEmpty then [] else [⟨.plain, " "⟩]) ++ pieces ++
    (if line.toList.getLast? = some '\n' then [] else [⟨.plain, "\n"⟩])

/-- The rows of as many lines, from one with a number on. -/
def rowsFrom? (source : String) (lines : LineStarts) (number : Nat) : Nat → Option (List Styled)
  | 0 => some []
  | n + 1 => do
    let row ← rowAt? source lines number
    let later ← rowsFrom? source lines (number + 1) n
    return row ++ later

/-- The heading of an excerpt that starts with a line. -/
def excerptHeading (file : String) (number : Nat) : List Styled :=
  [⟨.plain, "    "⟩, ⟨.dimmed, "╭─["⟩, ⟨.plain, sourceName file⟩, ⟨.dimmed, ":"⟩,
    ⟨.plain, toString number⟩, ⟨.dimmed, "]"⟩, ⟨.plain, "\n"⟩]

/-- The excerpt around a span, if the source is short enough, and each line can be looked up and read. -/
def excerpt? (file source : String) (s : Span) : Option (List Styled) := do
  let lines ← LineStarts.ofSource? source
  let first := max (lines.firstLine s) 1
  let last := max (lines.lastLine s) first
  let rows ← rowsFrom? source lines first (last + 1 - first)
  return excerptHeading file first ++ rows ++ [⟨.dimmed, "────╯"⟩]

/-! ## Text and its styles -/

theorem unstyled_append (a b : List Styled) : unstyled (a ++ b) = unstyled a ++ unstyled b := by
  rw [unstyled, List.map_append, String.join_append]
  rfl

theorem StyleCodes.usual_noLineFeed : StyleCodes.usual.NoLineFeed := fun style => by
  cases style <;> decide

theorem count_newline_parts {codes : StyleCodes} (hcodes : codes.NoLineFeed) (piece : Styled) :
    (String.join (piece.parts codes)).toList.count '\n' = piece.text.toList.count '\n' := by
  obtain ⟨hbefore, hafter⟩ := hcodes piece.style
  unfold Styled.parts
  split
  · simp
  · simp [List.count_eq_zero_of_not_mem hbefore, List.count_eq_zero_of_not_mem hafter]

/-- Pieces have the same line feeds with codes and without. -/
theorem count_newline_coloured {codes : StyleCodes} (hcodes : codes.NoLineFeed) (pieces : List Styled) :
    (coloured codes pieces).toList.count '\n' = (unstyled pieces).toList.count '\n' := by
  induction pieces with
  | nil => rfl
  | cons piece pieces ih =>
    rw [coloured, unstyled] at ih
    rw [coloured, unstyled, List.flatMap_cons, List.map_cons, String.join_append, String.join_cons,
      String.toList_append, String.toList_append, List.count_append, List.count_append, ih,
      count_newline_parts hcodes]

/-! ## Lines by their numbers -/

/-- The line of a source with a number. -/
def lineWith (source : String) (number : Nat) : List Char :=
  ((splitLines source.toList)[number - 1]?).getD []

section

variable {source : String} {number : Nat} (hpos : 1 ≤ number)
  (hle : number ≤ (splitLines source.toList).length)
include hpos hle

theorem getElem?_splitLines : (splitLines source.toList)[number - 1]? = some (lineWith source number) := by
  rw [lineWith, List.getElem?_eq_getElem (by omega)]
  rfl

theorem text?_lineWith : ((LineStarts.ofSource source).lineSpan? number).bind (·.text? source) =
    some (String.ofList (lineWith source number)) := by
  have htext := LineStarts.text?_lineSpan? (getElem?_splitLines hpos hle)
  rwa [Nat.sub_add_cancel hpos] at htext

theorem byteLength_lineWith_le : byteLength (lineWith source number) ≤ byteLength source.toList := by
  obtain ⟨before, later, h⟩ := List.append_of_mem (List.mem_of_getElem? (getElem?_splitLines hpos hle))
  rw [← splitLines_flatten source.toList, h, List.flatten_append, List.flatten_cons, byteLength_append,
    byteLength_append]
  omega

/-- A line and the line feed that is put after it if it has none hold one line feed. -/
theorem count_newline_lineWith : (lineWith source number ++
    if (lineWith source number).getLast? = some '\n' then [] else ['\n']).count '\n' = 1 := by
  obtain ⟨body, hbody, hline⟩ := exists_of_getElem?_splitLines (getElem?_splitLines hpos hle)
  rw [hline]
  have hzero := List.count_eq_zero_of_not_mem hbody
  split
  · rw [List.getLast?_concat, if_pos rfl, List.append_nil, List.count_append, hzero]
    rfl
  · rw [List.append_nil, if_neg fun h => hbody (List.mem_of_getLast? h), List.count_append, hzero]
    rfl

end

/-- The lines with numbers in some range, of lines that are numbered from `start` on. -/
theorem filterMap_zipIdx_eq (lines : List (List Char)) (first : Nat) {start last : Nat}
    (hlast : last < start + lines.length) :
    ((lines.zipIdx start).filterMap fun (line, number) =>
      if first ≤ number ∧ number ≤ last then some (number, line) else none) =
    (List.range' (max first start) (last + 1 - max first start)).map fun number =>
      (number, (lines[number - start]?).getD []) := by
  induction lines generalizing start with
  | nil =>
    have hnone : last + 1 - max first start = 0 := by
      rw [List.length_nil] at hlast
      omega
    rw [hnone]
    rfl
  | cons line lines ih =>
    have hnext : last < start + 1 + lines.length := by
      rw [List.length_cons] at hlast
      omega
    have hlater := ih hnext
    have hshift : ((List.range' (max first (start + 1)) (last + 1 - max first (start + 1))).map
        fun number => (number, (lines[number - (start + 1)]?).getD [])) =
        (List.range' (max first (start + 1)) (last + 1 - max first (start + 1))).map
          fun number => (number, ((line :: lines)[number - start]?).getD []) := by
      refine List.map_congr_left fun number hnumber => ?_
      have hsub : number - start = number - (start + 1) + 1 := by
        have := (List.mem_range'_1.1 hnumber).1
        omega
      rw [hsub, List.getElem?_cons_succ]
    rw [List.zipIdx_cons, List.filterMap_cons, hlater, hshift]
    by_cases hstart : first ≤ start ∧ start ≤ last
    · -- the line is the first one of the range
      have hmax : max first start = start := by omega
      have hnext : max first (start + 1) = start + 1 := by omega
      have hcount : last + 1 - start = last + 1 - (start + 1) + 1 := by omega
      simp only [if_pos hstart, hmax, hnext, hcount, List.range'_succ, List.map_cons, Nat.sub_self]
      rfl
    · simp only [if_neg hstart]
      by_cases hafter : last < start
      · have hnone : last + 1 - max first start = 0 := by omega
        have hnone' : last + 1 - max first (start + 1) = 0 := by omega
        rw [hnone, hnone']
        rfl
      · have hmax : max first (start + 1) = max first start := by omega
        rw [hmax]

/-- The lines of an excerpt, by their numbers. -/
theorem linesBetween_eq {source : String} {first last : Nat} (hfirst : 1 ≤ first)
    (hlast : last ≤ (splitLines source.toList).length) : linesBetween source first last =
      (List.range' first (last + 1 - first)).map fun number => (number, lineWith source number) := by
  have hrange : last < 1 + (splitLines source.toList).length := by omega
  have h := filterMap_zipIdx_eq (splitLines source.toList) first hrange
  rw [Nat.max_eq_left hfirst] at h
  exact h

/-! ## Rows -/

/-- The row shows the line of a source with a number: the number, a bar, and all text of the line, ended
by the only line feed. -/
structure ShowsLine (codes : StyleCodes) (source : String) (number : Nat) (row : List Styled) :
    Prop where
  shows : ∃ line : String,
    ((LineStarts.ofSource source).lineSpan? number).bind (·.text? source) = some line ∧
      unstyled row = padded ' ' .right 3 (toString number) ++ " │" ++
        (if line.isEmpty then "" else " ") ++ line ++
        (if line.toList.getLast? = some '\n' then "" else "\n")
  newline : (coloured codes row).toList.count '\n' = 1

section

variable {source : String} {number : Nat}

theorem unstyled_excerptRow (number : Nat) (line : List Char) : unstyled (excerptRow number line) =
    padded ' ' .right 3 (toString number) ++ " │" ++ (if line.isEmpty then "" else " ") ++
      String.ofList line ++ (if line.getLast? = some '\n' then "" else "\n") := by
  have hspace : unstyled (if line.isEmpty then [] else [⟨.plain, " "⟩]) =
      if line.isEmpty then "" else " " := by
    split <;> rfl
  have hend : unstyled (if line.getLast? = some '\n' then [] else [⟨.plain, "\n"⟩]) =
      if line.getLast? = some '\n' then "" else "\n" := by
    split <;> rfl
  have hnumber : unstyled [⟨.plain, padded ' ' .right 3 (toString number) ++ " "⟩, ⟨.dimmed, "│"⟩] =
      padded ' ' .right 3 (toString number) ++ " │" := by
    simp [unstyled, String.append_assoc]
  rw [excerptRow, unstyled_append, unstyled_append, unstyled_append, highlight_unstyled, hspace, hend,
    hnumber]

theorem showsLine_excerptRow {codes : StyleCodes} (hcodes : codes.NoLineFeed) (hpos : 1 ≤ number)
    (hle : number ≤ (splitLines source.toList).length) :
    ShowsLine codes source number (excerptRow number (lineWith source number)) := by
  have htext := unstyled_excerptRow number (lineWith source number)
  refine ⟨⟨_, text?_lineWith hpos hle, by simpa using htext⟩, ?_⟩
  have hnumber : '\n' ∉ (padded ' ' .right 3 (toString number)).toList :=
    notMem_padded (by decide) (notMem_repr (by decide) number)
  have hspace : (if (lineWith source number).isEmpty then "" else " ").toList.count '\n' = 0 := by
    split <;> rfl
  have hend : (if (lineWith source number).getLast? = some '\n' then "" else "\n").toList =
      if (lineWith source number).getLast? = some '\n' then [] else ['\n'] := by
    split <;> rfl
  have hline := count_newline_lineWith hpos hle
  rw [List.count_append] at hline
  rw [count_newline_coloured hcodes, htext]
  simp only [String.toList_append, List.count_append, String.toList_ofList, hend, hspace,
    List.count_eq_zero_of_not_mem hnumber]
  rw [Nat.add_assoc, hline]
  rfl

theorem rowAt?_eq (hpos : 1 ≤ number) (hle : number ≤ (splitLines source.toList).length)
    (hsize : IsShort source) : rowAt? source (.ofSource source) number =
      some (excerptRow number (lineWith source number)) := by
  obtain ⟨span, hspan, htext⟩ := Option.bind_eq_some_iff.1 (text?_lineWith hpos hle)
  have hline : IsShort (String.ofList (lineWith source number)) := by
    rw [IsShort, String.toList_ofList]
    exact Nat.lt_of_le_of_lt (byteLength_lineWith_le hpos hle) hsize
  simp [rowAt?, hspan, htext, highlight?_eq hline, excerptRow]

/-- Looking up line after line fails for none of them. -/
theorem rowsFrom?_eq {n : Nat} (hpos : 1 ≤ number)
    (hle : number + n ≤ (splitLines source.toList).length + 1)
    (hsize : IsShort source) : rowsFrom? source (.ofSource source) number n =
      some ((List.range' number n).flatMap fun k => excerptRow k (lineWith source k)) := by
  induction n generalizing number with
  | zero => rfl
  | succ n ih =>
    rw [rowsFrom?, rowAt?_eq hpos (by omega) hsize, ih (Nat.le_add_left 1 number) (by omega),
      List.range'_succ, List.flatMap_cons]
    rfl

end

/-! ## Excerpts -/

theorem unstyled_excerptHeading (file : String) (number : Nat) : unstyled (excerptHeading file number) =
    "    ╭─[" ++ sourceName file ++ ":" ++ toString number ++ "]\n" := by
  rw [← String.toList_inj]
  simp [excerptHeading, unstyled]

section

variable (source : String) (s : Span)

/-- The rows of an excerpt, by the numbers of their lines. -/
theorem excerpt_eq (file : String) :
    let first := (LineStarts.ofSource source).firstLine s
    let last := (LineStarts.ofSource source).lastLine s
    excerpt file source s = excerptHeading file first ++
      ((List.range' first (last - first + 1)).flatMap fun k => excerptRow k (lineWith source k)) ++
      [⟨.dimmed, "────╯"⟩] := by
  intro first last
  have hcount : last - first + 1 = last + 1 - first :=
    (Nat.succ_sub (LineStarts.firstLine_le_lastLine source s)).symm
  have hlines := linesBetween_eq (LineStarts.lineAt_pos source s.start)
    (LineStarts.lastLine_le source s)
  rw [hcount, excerpt]
  simp only [LineStarts.firstLine, hlines, List.flatMap_map]
  rfl

variable {source}

/-- An excerpt can be made for each span, wherever it starts and ends. -/
theorem excerpt?_eq (h : IsShort source) (file : String) :
    excerpt? file source s = some (excerpt file source s) := by
  have hpos : 1 ≤ (LineStarts.ofSource source).firstLine s := LineStarts.lineAt_pos source s.start
  have hmono := LineStarts.firstLine_le_lastLine source s
  have hlast := LineStarts.lastLine_le source s
  have hfirst : max ((LineStarts.ofSource source).firstLine s) 1 =
      (LineStarts.ofSource source).firstLine s := Nat.max_eq_left hpos
  have hle : (LineStarts.ofSource source).firstLine s +
      ((LineStarts.ofSource source).lastLine s - (LineStarts.ofSource source).firstLine s + 1) ≤
      (splitLines source.toList).length + 1 := by omega
  have hrows := rowsFrom?_eq hpos hle h
  simp only [excerpt_eq, excerpt?, LineStarts.ofSource?, if_pos h, Option.bind_eq_bind, Option.bind_some,
    hfirst, Nat.max_eq_left hmono, Nat.succ_sub hmono, hrows]
  rfl

end

end StackLang

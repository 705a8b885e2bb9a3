import StackLang.Proofs.Token.Bytes
import StackLang.Source.Lines

/-!
# Where lines start and end

The lines of a text start where the text does and after each line feed. So a position is on the line that is
one more than the number of line feeds before it, and the span of a line reads just this line.

Results:
* `lineAt_eq`: the line of a position, by the line feeds before it.
* `le_iff_of_rising`: how many starts there are up to a position, by their order.
* `lineSpan?_eq_some_iff`, `text?_lineSpan?`: the span of a line, and what it reads.
* `lines_exact`: all that lines, positions and spans have to do with each other.
-/
namespace StackLang

open Token (encode encode_cons length_encode utf8EncodeChar_cases byteChar)

/-! ## Line feeds -/

/-- The byte of a line feed. -/
def lineFeed : UInt8 := 0x0A

theorem utf8EncodeChar_newline : String.utf8EncodeChar '\n' = [lineFeed] := rfl

/-- No byte of another character is that of a line feed. -/
theorem lineFeed_notMem_utf8EncodeChar {c : Char} (h : c ≠ '\n') :
    lineFeed ∉ String.utf8EncodeChar c := by
  obtain ⟨b, hc, rfl, -⟩ | ⟨b, later, hc, -, -, hall⟩ := utf8EncodeChar_cases c
  · rw [hc, List.mem_singleton]
    rintro rfl
    exact h rfl
  · rw [hc]
    exact fun hmem => absurd (hall _ hmem) (by decide)

theorem count_encode (cs : List Char) : (encode cs).count lineFeed = cs.count '\n' := by
  induction cs with
  | nil => rfl
  | cons c cs ih =>
    rw [encode_cons, List.count_append, ih]
    by_cases h : c = '\n'
    · subst h
      rw [List.count_cons_self, Nat.add_comm]
      rfl
    · rw [List.count_eq_zero_of_not_mem (lineFeed_notMem_utf8EncodeChar h), List.count_cons_of_ne h,
        Nat.zero_add]

/-! ## Starts of lines -/

theorem lt_of_mem_laterLineStarts {position s : Nat} {cs : List Char}
    (h : s ∈ laterLineStarts position cs) : position < s := by
  induction cs generalizing position with
  | nil => cases h
  | cons c cs ih =>
    have hpos := c.utf8Size_pos
    unfold laterLineStarts at h
    simp only at h
    split at h
    · rcases List.mem_cons.1 h with rfl | h
      · omega
      · have := ih h
        omega
    · have := ih h
      omega

theorem rising_laterLineStarts (position : Nat) (cs : List Char) :
    (position :: laterLineStarts position cs).Pairwise (· < ·) := by
  induction cs generalizing position with
  | nil => exact List.pairwise_singleton _ _
  | cons c cs ih =>
    refine List.pairwise_cons.2 ⟨fun s => lt_of_mem_laterLineStarts, ?_⟩
    rw [laterLineStarts]
    split
    · exact ih _
    · exact (List.pairwise_cons.1 (ih _)).2

/-- The lines that start up to some byte, after the first one, are as many as there are line feeds
before this byte. -/
theorem countP_laterLineStarts (position n : Nat) (cs : List Char) :
    (laterLineStarts position cs).countP (· ≤ position + n) =
      ((encode cs).take n).count lineFeed := by
  induction cs generalizing position n with
  | nil => rw [laterLineStarts, Token.encode_nil, List.take_nil]; rfl
  | cons c cs ih =>
    have hsize : (String.utf8EncodeChar c).length = c.utf8Size := String.length_utf8EncodeChar c
    have hlater : (laterLineStarts (position + c.utf8Size) cs).countP (· ≤ position + n) =
        ((encode cs).take (n - c.utf8Size)).count lineFeed := by
      by_cases hn : c.utf8Size ≤ n
      · have heq : position + n = position + c.utf8Size + (n - c.utf8Size) := by omega
        rw [heq, ih]
      · -- the character goes on beyond the byte
        have hzero : n - c.utf8Size = 0 := by omega
        rw [hzero, List.take_zero, List.count_nil, List.countP_eq_zero]
        intro s hs hle
        have := lt_of_mem_laterLineStarts hs
        have := of_decide_eq_true hle
        omega
    rw [encode_cons, List.take_append, List.count_append, hsize, ← hlater, laterLineStarts]
    by_cases hc : c = '\n'
    · subst hc
      rw [if_pos rfl, List.countP_cons, Nat.add_comm]
      congr 1
      -- the line feed is before the byte, unless the byte is the first one
      cases n with
      | zero => exact if_neg fun h => absurd (of_decide_eq_true h) (Nat.not_succ_le_self position)
      | succ n =>
        have hle : position + ('\n' : Char).utf8Size ≤ position + (n + 1) :=
          Nat.add_le_add_left (Nat.succ_pos n) position
        rw [if_pos (decide_eq_true hle), utf8EncodeChar_newline, List.take_succ_cons,
          List.count_cons_self, List.take_nil, List.count_nil]
    · rw [if_neg hc, List.count_eq_zero_of_not_mem fun hmem =>
        lineFeed_notMem_utf8EncodeChar hc (List.mem_of_mem_take hmem), Nat.zero_add]

/-- In a rising list, the numbers up to some bound come first. -/
theorem le_iff_of_rising {starts : List Nat} (h : starts.Pairwise (· < ·)) {j s position : Nat}
    (hs : starts[j]? = some s) : s ≤ position ↔ j < starts.countP (· ≤ position) := by
  induction starts generalizing j with
  | nil => cases hs
  | cons first starts ih =>
    obtain ⟨hfirst, hstarts⟩ := List.pairwise_cons.1 h
    rw [List.countP_cons]
    by_cases hle : first ≤ position
    · rw [if_pos (decide_eq_true hle)]
      cases j with
      | zero =>
        cases hs
        exact iff_of_true hle (Nat.succ_pos _)
      | succ j => rw [ih hstarts hs, Nat.add_lt_add_iff_right]
    · -- then no number is
      have hnone : starts.countP (· ≤ position) = 0 := List.countP_eq_zero.2 fun s hs hs' =>
        hle (Nat.le_trans (Nat.le_of_lt (hfirst s hs)) (of_decide_eq_true hs'))
      have hlt : first ≤ s := by
        rcases List.mem_cons.1 (List.mem_of_getElem? hs) with rfl | hs
        · exact Nat.le_refl _
        · exact Nat.le_of_lt (hfirst s hs)
      rw [if_neg fun h => hle (of_decide_eq_true h), hnone]
      exact iff_of_false (fun hs => hle (Nat.le_trans hlt hs)) (Nat.not_lt_zero j)

/-! ## Lines -/

/-- Where lines start that follow each other from a position on. -/
def startsFrom (position : Nat) : List (List Char) → List Nat
  | [] => []
  | line :: lines => position :: startsFrom (position + byteLength line) lines

theorem length_startsFrom (position : Nat) (lines : List (List Char)) :
    (startsFrom position lines).length = lines.length := by
  induction lines generalizing position with
  | nil => rfl
  | cons line lines ih => rw [startsFrom, List.length_cons, ih, List.length_cons]

theorem getElem?_startsFrom {position k : Nat} {lines : List (List Char)} (h : k < lines.length) :
    (startsFrom position lines)[k]? = some (position + byteLength (lines.take k).flatten) := by
  induction lines generalizing position k with
  | nil => cases h
  | cons line lines ih =>
    cases k with
    | zero => rfl
    | succ k =>
      rw [startsFrom, List.getElem?_cons_succ, ih (Nat.lt_of_succ_lt_succ h), List.take_succ_cons,
        List.flatten_cons, byteLength_append, Nat.add_assoc]

theorem join_map_ofList (lines : List (List Char)) :
    String.join (lines.map String.ofList) = String.ofList lines.flatten := by
  induction lines with
  | nil => rfl
  | cons line lines ih =>
    rw [List.map_cons, String.join_cons, ih, List.flatten_cons, String.ofList_append]

theorem splitLines_newline (cs : List Char) : splitLines ('\n' :: cs) = ['\n'] :: splitLines cs := rfl

theorem exists_splitLines (cs : List Char) : ∃ line lines, splitLines cs = line :: lines ∧
    ∀ c ≠ '\n', splitLines (c :: cs) = (c :: line) :: lines := by
  have hcons : ∃ line lines, splitLines cs = line :: lines := by
    cases cs with
    | nil => exact ⟨[], [], rfl⟩
    | cons c cs =>
      unfold splitLines
      split
      · exact ⟨_, _, rfl⟩
      · split
        · exact ⟨_, _, rfl⟩
        · exact ⟨_, _, rfl⟩
  obtain ⟨line, lines, h⟩ := hcons
  refine ⟨line, lines, h, fun c hc => ?_⟩
  rw [splitLines, if_neg hc, h]

/-- The lines of a text start where the text does and after each line feed. -/
theorem starts_eq (position : Nat) (cs : List Char) :
    position :: laterLineStarts position cs = startsFrom position (splitLines cs) := by
  induction cs generalizing position with
  | nil => rfl
  | cons c cs ih =>
    rw [laterLineStarts]
    by_cases hc : c = '\n'
    · subst hc
      rw [splitLines_newline, startsFrom, ← ih]
      rfl
    · obtain ⟨line, lines, h, hcons⟩ := exists_splitLines cs
      have hlater := ih (position + c.utf8Size)
      rw [h, startsFrom] at hlater
      rw [if_neg hc, hcons c hc, startsFrom, (List.cons.inj hlater).2, byteLength_cons, Nat.add_assoc]

theorem length_splitLines (cs : List Char) : (splitLines cs).length = cs.count '\n' + 1 := by
  induction cs with
  | nil => rfl
  | cons c cs ih =>
    by_cases hc : c = '\n'
    · subst hc
      rw [splitLines_newline, List.length_cons, ih, List.count_cons_self]
    · obtain ⟨line, lines, h, hcons⟩ := exists_splitLines cs
      rw [hcons c hc, List.count_cons_of_ne hc, ← ih, h, List.length_cons, List.length_cons]

/-- Each line but the last ends with its only line feed, and the last one has none. -/
theorem exists_of_getElem?_splitLines {cs line : List Char} {k : Nat}
    (h : (splitLines cs)[k]? = some line) : ∃ body, '\n' ∉ body ∧
      line = body ++ if k + 1 < (splitLines cs).length then ['\n'] else [] := by
  induction cs generalizing line k with
  | nil =>
    cases k with
    | zero => cases h; exact ⟨[], List.not_mem_nil, rfl⟩
    | succ k => cases h
  | cons c cs ih =>
    obtain ⟨first, later, hsplit, hcons⟩ := exists_splitLines cs
    by_cases hc : c = '\n'
    · subst hc
      rw [splitLines_newline] at h ⊢
      cases k with
      | zero =>
        cases h
        refine ⟨[], List.not_mem_nil, ?_⟩
        rw [if_pos (by rw [hsplit]; simp)]
        rfl
      | succ k =>
        simp only [List.length_cons, Nat.add_lt_add_iff_right]
        exact ih h
    · rw [hcons c hc] at h ⊢
      rw [hsplit] at ih
      cases k with
      | zero =>
        cases h
        obtain ⟨body, hbody, heq⟩ := ih (k := 0) rfl
        refine ⟨c :: body, fun hmem => ?_, congrArg (c :: ·) heq⟩
        exact (List.mem_cons.1 hmem).elim (fun h => hc h.symm) hbody
      | succ k => exact ih h

namespace LineStarts

variable {source : String}

theorem starts_ofSource (source : String) :
    (ofSource source).starts = startsFrom 0 (splitLines source.toList) := starts_eq 0 source.toList

theorem rising_starts (source : String) : (ofSource source).starts.Pairwise (· < ·) :=
  rising_laterLineStarts 0 source.toList

theorem length_starts (source : String) :
    (ofSource source).starts.length = (utf8 source).count lineFeed + 1 := by
  rw [starts_ofSource, length_startsFrom, length_splitLines]
  exact congrArg (· + 1) (count_encode source.toList).symm

/-- The line of a position is one more than the number of line feeds before it. -/
theorem lineAt_eq (source : String) (position : Nat) : (ofSource source).lineAt position =
    1 + ((utf8 source).take (min position (utf8 source).length)).count lineFeed := by
  have hlater := countP_laterLineStarts 0 position source.toList
  rw [Nat.zero_add] at hlater
  rw [← List.take_eq_take_min, lineAt, ofSource, List.countP_cons, hlater,
    if_pos (decide_eq_true (Nat.zero_le position)), Nat.add_comm]
  rfl

theorem lineAt_pos (source : String) (position : Nat) : 1 ≤ (ofSource source).lineAt position := by
  rw [lineAt_eq]
  exact Nat.le_add_right _ _

theorem lineAt_le (source : String) (position : Nat) :
    (ofSource source).lineAt position ≤ (utf8 source).count lineFeed + 1 := by
  rw [← length_starts]
  exact List.countP_le_length

theorem lineAt_mono (lines : LineStarts) {a b : Nat} (h : a ≤ b) : lines.lineAt a ≤ lines.lineAt b :=
  List.countP_mono_left fun _ _ hs => decide_eq_true (Nat.le_trans (of_decide_eq_true hs) h)

theorem firstLine_le_lastLine (source : String) (s : Span) :
    (ofSource source).firstLine s ≤ (ofSource source).lastLine s :=
  lineAt_mono _ (Nat.le_max_right _ _)

theorem lastLine_le (source : String) (s : Span) :
    (ofSource source).lastLine s ≤ (splitLines source.toList).length := by
  rw [length_splitLines, ← count_encode]
  exact lineAt_le source _

/-- The bytes of the lines before one with an index. -/
def bytesBefore (source : String) (k : Nat) : Nat :=
  byteLength ((splitLines source.toList).take k).flatten

theorem bytesBefore_length (source : String) :
    bytesBefore source (splitLines source.toList).length = byteLength source.toList := by
  rw [bytesBefore, List.take_length, splitLines_flatten]

theorem getElem?_starts {k : Nat} (h : k < (splitLines source.toList).length) :
    (ofSource source).starts[k]? = some (bytesBefore source k) := by
  rw [starts_ofSource, getElem?_startsFrom h, Nat.zero_add]
  rfl

theorem lineSpan?_zero (lines : LineStarts) : lines.lineSpan? 0 = none := rfl

theorem lineSpan?_eq (lines : LineStarts) (k : Nat) : lines.lineSpan? (k + 1) =
    lines.starts[k]?.map fun start => ⟨start, lines.starts[k + 1]?.getD lines.size⟩ := by
  rw [Option.map_eq_bind]
  rfl

/-- The span of a line goes from the end of the lines before it to its own end. -/
theorem lineSpan?_succ {k : Nat} (h : k < (splitLines source.toList).length) :
    (ofSource source).lineSpan? (k + 1) =
      some ⟨bytesBefore source k, bytesBefore source (k + 1)⟩ := by
  have hstop : (ofSource source).starts[k + 1]?.getD (ofSource source).size =
      bytesBefore source (k + 1) := by
    by_cases hlast : k + 1 < (splitLines source.toList).length
    · rw [getElem?_starts hlast]
      rfl
    · obtain heq : (splitLines source.toList).length = k + 1 := by omega
      have hend : (ofSource source).starts.length = k + 1 := by
        rw [starts_ofSource, length_startsFrom, heq]
      rw [List.getElem?_eq_none (Nat.le_of_eq hend), ← heq, bytesBefore_length]
      rfl
  have hstart := getElem?_starts h
  rw [lineSpan?_eq, hstart, hstop]
  rfl

theorem isSome_lineSpan?_iff {number : Nat} : ((ofSource source).lineSpan? number).isSome ↔
    1 ≤ number ∧ number ≤ (utf8 source).count lineFeed + 1 := by
  rw [← length_starts, starts_ofSource, length_startsFrom]
  cases number with
  | zero => simp [lineSpan?_zero]
  | succ k =>
    by_cases hk : k < (splitLines source.toList).length
    · rw [lineSpan?_succ hk]
      exact iff_of_true rfl ⟨Nat.succ_pos k, hk⟩
    · have hnone : (ofSource source).starts[k]? = none :=
        List.getElem?_eq_none (by rw [starts_ofSource, length_startsFrom]; omega)
      refine iff_of_false ?_ (by omega)
      simp [lineSpan?_eq, hnone]

/-- The span of a line reads the line. -/
theorem text?_lineSpan? {k : Nat} {line : List Char}
    (h : (splitLines source.toList)[k]? = some line) :
    ((ofSource source).lineSpan? (k + 1)).bind (·.text? source) = some (String.ofList line) := by
  obtain ⟨hk, rfl⟩ := List.getElem?_eq_some_iff.1 h
  have hstop : bytesBefore source (k + 1) =
      bytesBefore source k + byteLength (splitLines source.toList)[k] := by
    rw [bytesBefore, bytesBefore, ← List.take_append_getElem hk, List.flatten_append,
      byteLength_append, List.flatten_singleton]
  have hsplit : ((splitLines source.toList).take k).flatten ++ (splitLines source.toList)[k] ++
      ((splitLines source.toList).drop (k + 1)).flatten = source.toList := by
    rw [List.append_assoc, ← List.flatten_cons, ← List.drop_eq_getElem_cons hk,
      ← List.flatten_append, List.take_append_drop, splitLines_flatten]
  have htext := Span.text?_append ((splitLines source.toList).take k).flatten
    (splitLines source.toList)[k] ((splitLines source.toList).drop (k + 1)).flatten
  rw [hsplit, String.ofList_toList] at htext
  rw [lineSpan?_succ hk, hstop]
  exact htext

/-- A position of the text is on the line whose span it lies in. -/
theorem lineSpan?_holds_iff {position number : Nat} (h : position < (utf8 source).length) :
    (∃ span, (ofSource source).lineSpan? number = some span ∧ span.start ≤ position ∧
      position < span.stop) ↔ (ofSource source).lineAt position = number := by
  have hle := lineAt_le source position
  rw [← length_starts, starts_ofSource, length_startsFrom] at hle
  have hpos := lineAt_pos source position
  -- by the starts of this line and of the next one, if there is one
  have hlies {k : Nat} (hk : k < (splitLines source.toList).length) :
      (bytesBefore source k ≤ position ∧ position < bytesBefore source (k + 1)) ↔
        (ofSource source).lineAt position = k + 1 := by
    rw [le_iff_of_rising (rising_starts source) (getElem?_starts hk), ← lineAt]
    by_cases hnext : k + 1 < (splitLines source.toList).length
    · have hstop : position < bytesBefore source (k + 1) ↔ ¬ bytesBefore source (k + 1) ≤ position :=
        Nat.not_le.symm
      rw [hstop, le_iff_of_rising (rising_starts source) (getElem?_starts hnext), ← lineAt]
      omega
    · have hlast : k + 1 = (splitLines source.toList).length := by omega
      have hbefore : position < bytesBefore source (k + 1) := by
        rw [hlast, bytesBefore_length, ← length_encode]
        exact h
      refine (and_iff_left hbefore).trans ?_
      omega
  constructor
  · rintro ⟨span, hspan, hstart, hstop⟩
    have hsome := isSome_lineSpan?_iff.1 (Option.isSome_iff_exists.2 ⟨span, hspan⟩)
    rw [← length_starts, starts_ofSource, length_startsFrom] at hsome
    obtain ⟨k, rfl⟩ := Nat.exists_eq_add_of_le' hsome.1
    rw [lineSpan?_succ hsome.2] at hspan
    cases hspan
    exact (hlies hsome.2).1 ⟨hstart, hstop⟩
  · rintro rfl
    obtain ⟨k, hk⟩ := Nat.exists_eq_add_of_le' hpos
    rw [hk] at hle ⊢
    exact ⟨_, lineSpan?_succ hle, (hlies hle).2 hk⟩

/-- What a search for a position among rising starts of lines can answer, as the number of a line: the
index of a start that is at the position gives the line that starts there, and the index at which the
position would have to be put in gives the line before it. -/
inductive Found (starts : List Nat) (position : Nat) : Nat → Prop where
  | hit {index : Nat} (h : starts[index]? = some position) : Found starts position (index + 1)
  | miss {index : Nat} (hle : index ≤ starts.length)
    (before : ∀ j s, j < index → starts[j]? = some s → s < position)
    (later : ∀ j s, index ≤ j → starts[j]? = some s → position < s) : Found starts position index

/-- However a position is searched for, its line is found. -/
theorem lineAt_of_found {lines : LineStarts} (h : lines.starts.Pairwise (· < ·))
    {position number : Nat} (hfound : Found lines.starts position number) :
    lines.lineAt position = number := by
  have hle : lines.lineAt position ≤ lines.starts.length := List.countP_le_length
  have upTo {j s : Nat} (hs : lines.starts[j]? = some s) : s ≤ position ↔ j < lines.lineAt position :=
    le_iff_of_rising h hs
  have atIndex {j : Nat} (hj : j < lines.starts.length) :
      lines.starts[j]? = some lines.starts[j] := List.getElem?_eq_getElem hj
  cases hfound with
  | @hit index hindex =>
    have hlow := (upTo hindex).1 (Nat.le_refl _)
    by_cases hnext : index + 1 < lines.starts.length
    · obtain ⟨hlt, heq⟩ := List.getElem?_eq_some_iff.1 hindex
      have hrise := List.pairwise_iff_getElem.1 h index (index + 1) hlt hnext (Nat.lt_succ_self _)
      have hhigh := mt (upTo (atIndex hnext)).2 (by omega)
      omega
    · omega
  | miss hindex before later =>
    have hhigh : ¬ number < lines.lineAt position := fun hlt => by
      have hnumber : number < lines.starts.length := Nat.lt_of_lt_of_le hlt hle
      have hbelow := (upTo (atIndex hnumber)).2 hlt
      exact Nat.not_lt_of_le hbelow (later _ _ (Nat.le_refl _) (atIndex hnumber))
    refine Nat.le_antisymm (Nat.le_of_not_lt hhigh) ?_
    cases number with
    | zero => exact Nat.zero_le _
    | succ j =>
      have hj : j < lines.starts.length := hindex
      exact (upTo (atIndex hj)).1 (Nat.le_of_lt (before j _ (Nat.lt_succ_self j) (atIndex hj)))

/-- What lines, positions and spans of a source have to do with each other. A span starts on the line that
is one more than the number of line feeds before its start, and ends on the one of its last byte, or of its
start if it is empty or reversed, whether or not these positions are in the source; both lines exist, and
they are in order. Any way of searching for a position finds its line. There is a span for each line, and
what the spans read is the source when it is put together: each line but the last one ends with its only
line feed. A position of the source lies in the span of a line just if a span that starts there is on this
line. -/
theorem lines_exact (source : String) :
    (∀ s, (ofSource source).firstLine s =
      1 + ((utf8 source).take (min s.start (utf8 source).length)).count lineFeed) ∧
    (∀ s, (ofSource source).lastLine s =
      1 + ((utf8 source).take (min (max (s.stop - 1) s.start) (utf8 source).length)).count lineFeed) ∧
    (∀ s, 1 ≤ (ofSource source).firstLine s ∧
      (ofSource source).firstLine s ≤ (ofSource source).lastLine s ∧
      (ofSource source).lastLine s ≤ (utf8 source).count lineFeed + 1) ∧
    (∀ position number, Found (ofSource source).starts position number →
      (ofSource source).lineAt position = number) ∧
    (∀ number, ((ofSource source).lineSpan? number).isSome ↔
      1 ≤ number ∧ number ≤ (utf8 source).count lineFeed + 1) ∧
    (∃ texts : List String, String.join texts = source ∧
      texts.length = (utf8 source).count lineFeed + 1 ∧
      ∀ k text, texts[k]? = some text →
        ((ofSource source).lineSpan? (k + 1)).bind (·.text? source) = some text ∧
        ∃ body, '\n' ∉ body ∧
          text = String.ofList (body ++ if k + 1 < texts.length then ['\n'] else [])) ∧
    ∀ s : Span, s.start < (utf8 source).length → ∀ number,
      (∃ span, (ofSource source).lineSpan? number = some span ∧ span.start ≤ s.start ∧
        s.start < span.stop) ↔ (ofSource source).firstLine s = number := by
  refine ⟨fun s => lineAt_eq source s.start, fun s => lineAt_eq source _,
    fun s => ⟨lineAt_pos source _, firstLine_le_lastLine source s, lineAt_le source _⟩,
    fun position number => lineAt_of_found (rising_starts source),
    fun number => isSome_lineSpan?_iff,
    ⟨(splitLines source.toList).map String.ofList, ?_, ?_, fun k text htext => ?_⟩,
    fun s hs number => lineSpan?_holds_iff hs⟩
  · rw [join_map_ofList, splitLines_flatten, String.ofList_toList]
  · rw [List.length_map, ← length_starts, starts_ofSource, length_startsFrom]
  · rw [List.getElem?_map, Option.map_eq_some_iff] at htext
    obtain ⟨line, hline, rfl⟩ := htext
    obtain ⟨body, hbody, heq⟩ := exists_of_getElem?_splitLines hline
    refine ⟨text?_lineSpan? hline, body, hbody, ?_⟩
    rw [List.length_map, ← heq]

/-- A reversed span that starts on the third line, after a character of two bytes and an empty line. The
place within the character is on the first line, and the end of the source on the third one. -/
theorem lines_exact_accent : 4 < (utf8 "é\n\nb").length ∧
    (ofSource "é\n\nb").firstLine ⟨4, 2⟩ = 3 ∧ (ofSource "é\n\nb").lastLine ⟨4, 2⟩ = 3 ∧
    (∃ span, (ofSource "é\n\nb").lineSpan? 3 = some span ∧ span.start ≤ 4 ∧ 4 < span.stop) ∧
    Found (ofSource "é\n\nb").starts 1 1 ∧ (ofSource "é\n\nb").lineAt 1 = 1 ∧
    (ofSource "é\n\nb").lineAt 5 = 3 := by
  obtain ⟨-, -, -, hfound, -, -, hholds⟩ := lines_exact "é\n\nb"
  have hthird : (ofSource "é\n\nb").firstLine ⟨4, 2⟩ = 3 := by decide
  have hfirst : Found (ofSource "é\n\nb").starts 1 1 := by
    refine .miss (by decide) (fun j s hj hs => ?_) fun j s hj hs => ?_
    · obtain rfl : j = 0 := by omega
      cases hs
      decide
    · have hlater : ∀ s ∈ (ofSource "é\n\nb").starts.drop 1, 1 < s := by decide
      refine hlater s (List.mem_of_getElem? (i := j - 1) ?_)
      rw [List.getElem?_drop, Nat.add_sub_cancel' hj]
      exact hs
  have hlength : 4 < (utf8 "é\n\nb").length := by decide
  exact ⟨hlength, hthird, by decide, (hholds ⟨4, 2⟩ hlength 3).2 hthird, hfirst, hfound 1 1 hfirst,
    by decide⟩

end LineStarts
end StackLang
